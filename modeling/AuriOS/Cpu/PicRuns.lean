import AuriOS.Cpu.Pic

/-!
# Runs of the interrupt controllers

From any state of the chips with nothing in service, through `pic_remap` and any number of
`pic_unmask_irq`, with devices and interrupts at any time:

* `picRun_masks`: the enabled lines are those that have been unmasked, and the cascade line for the
  slave's;
* `picRun_inService`: outside `irq_handler` nothing is in service, and the vector in it is in range;
* `picRun_requests`: every edge is served once, or withdrawn, or still pending, and a pending
  request on an enabled line reaches the processor.
-/

namespace AuriOS

open Pic8259 Program

/-- The chips in any state with nothing in service, in front of the boot sequence. -/
structure PicSystem.Boots (before after : List (BitVec 8)) (s : PicSystem) : Prop where
  stage : s.stage = .main
  todo : s.todo = picProgram before after
  flag : s.interruptFlag = false
  isr : s.pair.master.isr = ∅ ∧ s.pair.slave.isr = ∅
  log : s.log = []

/-! ### Requests -/

/-- The vector of a line. -/
def lineVector : Irq → BitVec 8
  | .master l => BitVec.ofNat 8 (32 + l)
  | .slave l => BitVec.ofNat 8 (40 + l)

/-- The lines that wait after an event. -/
def PicEvent.apply (w : Finset Irq) : PicEvent → Finset Irq
  | .rise l => insert l w
  | .fall l => w.erase l
  | .serve _ (some l) => w.erase l
  | .serve _ none => w
  | .initializeMaster => w.filter fun l => l.isSlave
  | .initializeSlave => w.filter fun l => !l.isSlave

/-- The lines that wait after a run, when those in `w` waited before it. -/
def waiting (w : Finset Irq) (log : List PicEvent) : Finset Irq := log.foldl PicEvent.apply w

/-- An interrupt is for a line that waited, under that line's vector, or it is spurious. -/
def PicEvent.Justified (w : Finset Irq) : PicEvent → Prop
  | .serve intNo (some l) => l ∈ w ∧ intNo = lineVector l
  | .serve intNo none => intNo = 39 ∨ intNo = 47
  | _ => True

/-- Every event of the log is justified by what came before it. -/
def Justified (w : Finset Irq) (log : List PicEvent) : Prop :=
  ∀ earlier event, earlier ++ [event] <+: log → event.Justified (waiting w earlier)

section Requests

variable {w : Finset Irq} {log : List PicEvent} {e : PicEvent}

/-- The last event of a log acts on what waits before it. -/
theorem waiting_concat (w : Finset Irq) (log : List PicEvent) (e : PicEvent) :
    waiting w (log ++ [e]) = e.apply (waiting w log) := by
  unfold waiting
  rw [List.foldl_append]
  rfl

/-- The empty log is justified. -/
theorem justified_nil (w : Finset Irq) : Justified w [] := fun earlier _ h =>
  absurd (List.prefix_nil.mp h) (List.append_ne_nil_of_right_ne_nil earlier (List.cons_ne_nil _ _))

/-- A justified log stays justified when a justified event follows it. -/
theorem Justified.concat (h : Justified w log) (he : e.Justified (waiting w log)) :
    Justified w (log ++ [e]) := by
  intro earlier event hprefix
  rcases List.prefix_concat_iff.mp hprefix with heq | hprefix
  · obtain ⟨rfl, hlast⟩ := List.append_inj' heq rfl
    obtain rfl := List.singleton_inj.mp hlast
    exact he
  · exact h earlier event hprefix

end Requests

/-- What a step keeps: the log tells the requests, and justifies what was served. -/
structure Accounted (w : Finset Irq) (s : PicSystem) : Prop where
  requests : ∀ l, l ≠ .master cascadeLine → (l ∈ waiting w s.log ↔ s.pair.Requested l)
  justified : Justified w s.log

/-- From the initialization of the slave on, the master knows what the slave asks for, except while
it waits for the slave's answer. -/
def LinkedFrom (length : ℕ) (s : PicSystem) : Prop :=
  s.todo.length + 3 ≤ length → s.stage ≠ .cascaded → s.pair.Linked

section Accounting

variable {s t : PicSystem} {w : Finset Irq}

/-- A device's change of level is accounted for. -/
theorem Accounted.device (h : Accounted w s) {l : Irq} {high : Bool} (hl : l ≠ .master cascadeLine)
    (hchange : s.pair.isHigh l ≠ high) : Accounted w (s.device l high) := by
  refine ⟨fun k hk => ?_, h.justified.concat ?_⟩
  · unfold PicSystem.device
    dsimp only
    rw [waiting_concat]
    by_cases hkl : k = l
    · subst hkl
      rw [Pair.requested_setLine_self hl hchange]
      cases high
      · simp [PicEvent.apply]
      · simp [PicEvent.apply]
    · rw [Pair.requested_setLine_of_ne hk hkl, ← h.requests k hk]
      cases high
      · simp [PicEvent.apply, hkl]
      · simp [PicEvent.apply, hkl]
  · cases high <;> trivial

/-- The command port of a line's chip. -/
def commandPort (l : Irq) : BitVec 16 := if l.isSlave then pic2Command else pic1Command

/-- A write forgets the edges of the chip that it initializes, and no others. -/
theorem requested_picOutb {port : BitVec 16} {value : BitVec 8} {p : Pair} {l : Irq}
    (hl : l ≠ .master cascadeLine) : (picOutb port value p).Requested l ↔
      p.Requested l ∧ ¬ (value.getLsbD 4 = true ∧ port = commandPort l) := by
  have hirr : ∀ (c : Chip) (k : Fin 8),
      k ∈ (c.writeCommand value).irr ↔ k ∈ c.irr ∧ ¬ value.getLsbD 4 = true := by
    intro c k
    unfold Chip.writeCommand
    cases value.getLsbD 4 <;> simp
  have hports : pic1Command ≠ pic2Command ∧ pic1Data ≠ pic1Command ∧ pic1Data ≠ pic2Command ∧
      pic2Data ≠ pic1Command ∧ pic2Data ≠ pic2Command := by decide
  unfold picOutb
  split_ifs with h1 h2 h3 h4
  · refine (Pair.requested_settle hl).trans ?_
    cases l with
    | master k => simp [Pair.Requested, commandPort, Irq.isSlave, h1, hirr]
    | slave k => simp [Pair.Requested, commandPort, Irq.isSlave, h1, hports]
  · refine (Pair.requested_settle hl).trans ?_
    cases l <;> simp [Pair.Requested, commandPort, Irq.isSlave, h2, hports, Chip.writeData]
  · refine (Pair.requested_settle hl).trans ?_
    cases l with
    | master k => simp [Pair.Requested, commandPort, Irq.isSlave, h3, hports.1.symm]
    | slave k => simp [Pair.Requested, commandPort, Irq.isSlave, h3, hirr]
  · refine (Pair.requested_settle hl).trans ?_
    cases l <;> simp [Pair.Requested, commandPort, Irq.isSlave, h4, hports, Chip.writeData]
  · cases l <;> simp [commandPort, Irq.isSlave, h1, h3]

/-- An initialization withdraws the requests of the chip it is written to, and no others. -/
theorem mem_waiting_initializes {port : BitVec 16} {value : BitVec 8} {log : List PicEvent}
    {l : Irq} : l ∈ waiting w (log ++ initializes port value) ↔
      l ∈ waiting w log ∧ ¬ (value.getLsbD 4 = true ∧ port = commandPort l) := by
  have hports : pic1Command ≠ pic2Command := by decide
  unfold initializes commandPort
  split_ifs with hinit h1 hslave h2 hslave hslave
  · rw [waiting_concat, PicEvent.apply, Finset.mem_filter, h1]
    exact and_congr_right fun _ => iff_of_true hslave fun h => hports h.2
  · rw [waiting_concat, PicEvent.apply, Finset.mem_filter]
    exact and_congr_right fun _ => iff_of_false hslave fun h => h ⟨hinit, h1⟩
  · rw [waiting_concat, PicEvent.apply, Finset.mem_filter, hslave]
    exact and_congr_right fun _ => iff_of_false (by decide) fun h => h ⟨hinit, h2⟩
  · rw [waiting_concat, PicEvent.apply, Finset.mem_filter]
    refine and_congr_right fun _ => iff_of_true ?_ fun h => h1 h.2
    rw [Bool.eq_false_of_not_eq_true hslave]
    rfl
  all_goals
    rw [List.append_nil]
    refine (and_iff_left ?_).symm
    simp_all

/-- A port write is accounted for by the initializations it begins. -/
theorem Accounted.write (h : Accounted w s) {port : BitVec 16} {value : BitVec 8}
    (hpair : t.pair = picOutb port value s.pair) (hlog : t.log = s.log ++ initializes port value) :
    Accounted w t := by
  constructor
  · intro l hl
    rw [hpair, hlog, requested_picOutb hl, mem_waiting_initializes, h.requests l hl]
  · rw [hlog]
    unfold initializes
    split_ifs
    · exact h.justified.concat trivial
    · exact h.justified.concat trivial
    · rw [List.append_nil]
      exact h.justified
    · rw [List.append_nil]
      exact h.justified

/-- The kernel's accesses are accounted for. -/
theorem Accounted.access (h : Accounted w s) (op : PicOp) : Accounted w (s.access op) := by
  cases op with
  | out port value => exact h.write rfl rfl
  | inAnd port mask => exact ⟨h.requests, h.justified⟩
  | outValue port => exact h.write rfl rfl
  | sti => exact ⟨h.requests, h.justified⟩

/-- An interrupt is logged with the request that the chip took. -/
theorem Accounted.serve (h : Accounted w s) {p : Pair} {intNo : BitVec 8} {line : Option Irq}
    (hpair : t.pair = p) (hlog : t.log = s.log ++ [.serve intNo line])
    (hp : ∀ l, l ≠ .master cascadeLine → (p.Requested l ↔ s.pair.Requested l ∧ line ≠ some l))
    (hline : (∃ l, line = some l ∧ l ≠ .master cascadeLine ∧ s.pair.Requested l ∧
        intNo = lineVector l) ∨ line = none ∧ (intNo = 39 ∨ intNo = 47)) : Accounted w t := by
  constructor
  · intro l hl
    rw [hpair, hlog, waiting_concat, hp l hl, ← h.requests l hl]
    cases line with
    | none => simp [PicEvent.apply]
    | some k =>
      simp only [PicEvent.apply, Finset.mem_erase, ne_eq, Option.some_inj]
      exact ⟨fun hmem => ⟨hmem.2, fun heq => hmem.1 heq.symm⟩,
        fun hmem => ⟨fun heq => hmem.2 heq.symm, hmem.1⟩⟩
  · rw [hlog]
    refine h.justified.concat ?_
    rcases hline with ⟨k, rfl, hk, hrequested, hvector⟩ | ⟨rfl, hspurious⟩
    · exact ⟨(h.requests k hk).mpr hrequested, hvector⟩
    · exact hspurious

/-- The master gives the vector of the line it acknowledges. -/
theorem master_vector : ∀ l : Fin 8,
    (0x20 ||| BitVec.ofNat 8 l : BitVec 8) = lineVector (.master l) := by
  decide

/-- The slave gives the vector of the line it acknowledges. -/
theorem slave_vector : ∀ l : Fin 8,
    (0x28 ||| BitVec.ofNat 8 l : BitVec 8) = lineVector (.slave l) := by
  decide

/-- The first acknowledge pulse is accounted for. -/
theorem Accounted.pulse1 (h : Accounted w s)
    (hmaster : s.view.master = masterConfig s.view.master.imr)
    (hisr : s.pair.master.isr = ∅) : Accounted w s.pulse1 := by
  have hconfig : s.pair.master.toConfig = masterConfig s.view.master.imr := hmaster
  have hauto : s.pair.master.autoEoi = false := congrArg Config.autoEoi hconfig
  have hcascade : s.pair.master.cascade = 0x04 := congrArg Config.cascade hconfig
  have hbase : s.pair.master.base = 0x20 := congrArg Config.base hconfig
  have hspec := Chip.acknowledge_spec hisr hauto
  have hline : s.pair.pulse1.1 = s.pair.master.acknowledge.1 := rfl
  obtain ⟨stage, log, heq, hcases⟩ := pulse1_eq s
  rw [hcascade, cascade_getLsbD, hline] at hcases
  rw [heq]
  rcases hcases with ⟨hl, -, hlog⟩ | ⟨hl, -, hlog⟩
  · -- the cascade line is taken, which is no device's
    have htaken : s.pair.master.request = some cascadeLine := by
      rcases hspec with ⟨hrequest, -, -⟩ | ⟨-, hseven, -⟩
      · rw [hrequest, of_decide_eq_true hl]
      · rw [hseven] at hl
        exact absurd hl (by decide)
    refine ⟨fun l hne => ?_, by rw [hlog]; exact h.justified⟩
    rw [hlog, h.requests l hne, Pair.requested_pulse1 hne, htaken]
    exact (and_iff_left fun hsome => hne (Option.some.inj hsome).symm).symm
  · refine h.serve rfl hlog (fun l hne => Pair.requested_pulse1 hne) ?_
    have hvector : s.pair.master.vector s.pair.master.acknowledge.1 =
        lineVector (.master s.pair.master.acknowledge.1) := by
      rw [← master_vector, Config.vector, hbase]
    rcases hspec with ⟨hrequest, -, -⟩ | ⟨hrequest, hseven, -⟩
    · refine Or.inl ⟨_, congrArg (Option.map Irq.master) hrequest,
        fun hne => of_decide_eq_false hl (Irq.master.inj hne), ?_, hvector⟩
      exact (Chip.mem_pending.mp (Chip.request_eq_some_iff.mp hrequest).1).1
    · refine Or.inr ⟨congrArg (Option.map Irq.master) hrequest, ?_⟩
      rw [hvector, hseven]
      exact Or.inl rfl

/-- The second acknowledge pulse is accounted for. -/
theorem Accounted.pulse2 (h : Accounted w s) (hslave : s.view.slave = slaveConfig s.view.slave.imr)
    (hisr : s.pair.slave.isr = ∅) : Accounted w s.pulse2 := by
  have hconfig : s.pair.slave.toConfig = slaveConfig s.view.slave.imr := hslave
  have hauto : s.pair.slave.autoEoi = false := congrArg Config.autoEoi hconfig
  have hbase : s.pair.slave.base = 0x28 := congrArg Config.base hconfig
  have hvector : s.pair.slave.vector s.pair.pulse2.1 =
      lineVector (.slave s.pair.slave.acknowledge.1) := by
    rw [← slave_vector, Config.vector, hbase]
    rfl
  refine h.serve rfl rfl (fun l hne => Pair.requested_pulse2 hne) ?_
  rcases Chip.acknowledge_spec hisr hauto with ⟨hrequest, -, -⟩ | ⟨hrequest, hseven, -⟩
  · exact Or.inl ⟨_, congrArg (Option.map Irq.slave) hrequest, Irq.noConfusion,
      (Chip.mem_pending.mp (Chip.request_eq_some_iff.mp hrequest).1).1, hvector⟩
  · refine Or.inr ⟨congrArg (Option.map Irq.slave) hrequest, ?_⟩
    rw [hvector, hseven]
    exact Or.inr rfl

end Accounting

/-! ### The cascade line -/

/-- An access that initializes no chip. -/
def PicOp.KeepsEdges : PicOp → Prop
  | .out port _ | .outValue port => port ≠ pic1Command ∧ port ≠ pic2Command
  | _ => True

section Linked

variable {s t : PicSystem} {before after : List (BitVec 8)}

/-- Behind the initialization of the slave no chip is initialized. -/
theorem keepsEdges_of_mem {op : PicOp} (hop : op ∈ (picProgram before after).drop 3) :
    op.KeepsEdges := by
  have hunmask : ∀ {op : PicOp}, op.Unmasks → op.KeepsEdges := by
    rintro _ (_ | _ | _ | _ | _)
    · trivial
    · trivial
    · exact ⟨by decide, by decide⟩
    · exact ⟨by decide, by decide⟩
    · trivial
  have hremap : ∀ op ∈ picRemap.drop 3, op.KeepsEdges := by
    simp [picRemap, ioWait, PicOp.KeepsEdges, pic1Command, pic2Command, pic1Data, pic2Data]
  have hdrop : (picProgram before after).drop 3 = picRemap.drop 3 ++ before.flatMap picUnmaskIrq ++
      .sti :: after.flatMap picUnmaskIrq := rfl
  rw [hdrop, List.mem_append, List.mem_append, List.mem_cons, List.mem_flatMap,
    List.mem_flatMap] at hop
  rcases hop with (hop | ⟨line, -, hop⟩) | rfl | ⟨line, -, hop⟩
  · exact hremap op hop
  · exact hunmask (picUnmaskIrq_unmasks line op hop)
  · trivial
  · exact hunmask (picUnmaskIrq_unmasks line op hop)

/-- Masks and ends of interrupts leave the master's edges alone. -/
theorem picOutb_linked {port : BitVec 16} {value : BitVec 8} {p : Pair} (h : p.Linked)
    (hedges : port ≠ pic1Command ∧ port ≠ pic2Command ∨ IsEoi (port, value)) :
    (picOutb port value p).Linked := by
  have heoi : ∀ c : Chip, (c.writeCommand Chip.endOfInterrupt).irr = c.irr ∧
      (c.writeCommand Chip.endOfInterrupt).level = c.level := fun c => ⟨rfl, rfl⟩
  rcases hedges with ⟨h1, h2⟩ | hw | hw
  · unfold picOutb
    rw [if_neg h1]
    split_ifs
    · exact Pair.settle_linked h.coupled
    · exact Pair.settle_linked h.coupled
    · exact h
  · obtain ⟨rfl, rfl⟩ := Prod.mk.inj hw
    exact Pair.settle_linked h.coupled
  · obtain ⟨rfl, rfl⟩ := Prod.mk.inj hw
    exact Pair.settle_linked h.coupled

/-- An access that initializes no chip keeps the pair linked. -/
theorem access_linked {op : PicOp} (h : s.pair.Linked) (hop : op.KeepsEdges) :
    (s.access op).pair.Linked := by
  cases op with
  | out port value => exact picOutb_linked h (Or.inl hop)
  | inAnd port mask => exact h
  | outValue port => exact picOutb_linked h (Or.inl hop)
  | sti => exact h

/-- The initialization of the slave takes back whatever it asked for. -/
theorem initialize_linked (p : Pair) : (picOutb pic2Command 0x11 p).Linked := by
  refine Pair.settle_linked_of_int ?_
  have hpending : (p.slave.writeCommand 0x11).pending = ∅ := rfl
  unfold Chip.int Chip.request
  rw [hpending]
  rfl

/-- The main program's access keeps the link, or makes it. -/
theorem LinkedFrom.main (h : LinkedFrom (picProgram before after).length s)
    {executed : List PicOp} {op : PicOp} {ops : List PicOp}
    (hprogram : picProgram before after = executed ++ op :: ops) (htodo : s.todo = op :: ops)
    (hstage : s.stage = .main) :
    LinkedFrom (picProgram before after).length { s.access op with todo := ops } := by
  intro hlength _
  have hop : (picProgram before after)[executed.length]? = some op := by
    rw [hprogram]
    simp
  rcases Nat.lt_or_ge executed.length 3 with hfew | hmany
  · -- the slave is initialized by this very access
    have htwo : executed.length = 2 := by
      rw [hprogram, List.length_append, List.length_cons] at hlength
      dsimp only at hlength
      omega
    rw [htwo] at hop
    obtain rfl : PicOp.out pic2Command 0x11 = op := Option.some.inj hop
    exact initialize_linked s.pair
  · have hmem : op ∈ (picProgram before after).drop 3 := by
      rw [hprogram, List.drop_append_of_le_length hmany]
      exact List.mem_append_right _ List.mem_cons_self
    refine access_linked (h ?_ (by rw [hstage]; exact Stage.noConfusion)) (keepsEdges_of_mem hmem)
    rw [htodo, hprogram, List.length_append, List.length_cons]
    omega

end Linked

/-! ### Whole runs -/

/-- What holds in every state of a run. -/
structure PicInv (before after : List (BitVec 8)) (v₀ : PicView) (w : Finset Irq) (s : PicSystem) :
    Prop where
  undisturbed : Undisturbed (picProgram before after) v₀ s
  inService : InService s
  accounted : Accounted w s
  linked : LinkedFrom (picProgram before after).length s

section Runs

variable {s s₀ t : PicSystem} {v₀ : PicView} {w : Finset Irq} {before after : List (BitVec 8)}

/-- With interrupts enabled, the chips are set up. -/
theorem PicInv.remapped (h : PicInv before after v₀ w s) (hv₀ : v₀.interruptFlag = false)
    (hflag : s.interruptFlag = true) : s.view.Remapped ∧ s.todo.length + 3 ≤
      (picProgram before after).length := by
  obtain ⟨executed, hprogram, hview⟩ := h.undisturbed.view
  constructor
  · rw [hview]
    refine remapped_of_interruptFlag hprogram hv₀ ?_
    rw [← hview]
    exact hflag
  · -- the first three accesses do not enable them
    by_contra hfew
    have hsti : PicOp.sti ∉ executed := by
      have htake : executed = (picProgram before after).take executed.length := by
        rw [hprogram, List.take_left]
      have hlen : executed.length < 3 := by
        have := congrArg List.length hprogram
        rw [List.length_append] at this
        omega
      intro hmem
      rw [htake] at hmem
      have hthree : (picProgram before after).take 3 = picRemap.take 3 := rfl
      have hmem := List.take_subset_take_left (picProgram before after) hlen.le hmem
      rw [hthree] at hmem
      exact absurd hmem (by decide)
    have hoff : s.view.interruptFlag = false := by
      rw [hview, foldl_interruptFlag hsti, hv₀]
    exact absurd (hflag.symm.trans hoff) (by decide)

/-- A request on the cascade line is not answered by the master. -/
theorem request_of_not_cascade (hmaster : s.view.master = masterConfig s.view.master.imr)
    (hl : s.pair.master.cascade.getLsbD s.pair.pulse1.1 = false) :
    s.pair.master.request ≠ some cascadeLine := by
  intro hrequest
  have hcascade : s.pair.master.cascade = 0x04 := congrArg Config.cascade hmaster
  have hline : s.pair.pulse1.1 = cascadeLine := by
    change s.pair.master.acknowledge.1 = cascadeLine
    unfold Chip.acknowledge
    rw [hrequest]
  rw [hcascade, hline] at hl
  exact absurd hl (by decide)

/-- Every step keeps the invariant of the boot program. -/
theorem PicInv.step (h : PicInv before after v₀ w s) (hv₀ : v₀.interruptFlag = false)
    (hstep : PicStep s t) : PicInv before after v₀ w t := by
  have hremapped := h.remapped hv₀
  have hon : s.stage ≠ .main → s.interruptFlag = true := fun hstage =>
    Bool.eq_true_of_not_eq_false fun hoff => hstage (h.inService.flag hoff)
  refine ⟨h.undisturbed.step hstep, h.inService.step h.undisturbed hv₀ hstep, ?_, ?_⟩
  · have hisr := h.inService.stage
    cases hstep with
    | device l high hl hchange => exact h.accounted.device hl hchange
    | main hstage htodo =>
      have haccess := h.accounted.access
      exact ⟨(haccess _).requests, (haccess _).justified⟩
    | sample hstage hflag hint => exact ⟨h.accounted.requests, h.accounted.justified⟩
    | pulse1 hstage =>
      rw [hstage] at hisr
      have hflag := hon (by rw [hstage]; exact Stage.noConfusion)
      exact h.accounted.pulse1 (hremapped hflag).1.1 hisr.1
    | pulse2 hstage =>
      rw [hstage] at hisr
      have hflag := hon (by rw [hstage]; exact Stage.noConfusion)
      exact h.accounted.pulse2 (hremapped hflag).1.2 hisr.2
    | endOfInterrupt hstage =>
      refine h.accounted.write rfl ?_
      rcases h.undisturbed.eoi _ _ hstage _ List.mem_cons_self with hw | hw <;>
        (obtain ⟨rfl, rfl⟩ := Prod.mk.inj hw; exact (List.append_nil _).symm)
    | iret hstage => exact ⟨h.accounted.requests, h.accounted.justified⟩
  · have hisr := h.inService.stage
    cases hstep with
    | device l high hl hchange =>
      exact fun hlength hstage => Pair.setLine_linked (h.linked hlength hstage) hl
    | main hstage htodo =>
      obtain ⟨executed, hprogram, -⟩ := h.undisturbed.view
      rw [htodo] at hprogram
      exact h.linked.main hprogram htodo hstage
    | sample hstage hflag hint =>
      exact fun hlength _ => h.linked hlength (by rw [hstage]; exact Stage.noConfusion)
    | pulse1 hstage =>
      have hflag := hon (by rw [hstage]; exact Stage.noConfusion)
      obtain ⟨⟨hmaster, -⟩, hlength⟩ := hremapped hflag
      have hlinked := h.linked hlength (by rw [hstage]; exact Stage.noConfusion)
      obtain ⟨stage, log, heq, hcases⟩ := pulse1_eq s
      rw [heq]
      rintro - hnot
      rcases hcases with ⟨-, hcascaded, -⟩ | ⟨hl, -, -⟩
      · exact absurd hcascaded hnot
      · exact Pair.pulse1_linked hlinked (request_of_not_cascade hmaster hl)
    | pulse2 hstage =>
      rw [hstage] at hisr
      have hflag := hon (by rw [hstage]; exact Stage.noConfusion)
      have hauto : s.pair.slave.autoEoi = false :=
        congrArg Config.autoEoi (hremapped hflag).1.2
      exact fun _ _ => Pair.pulse2_linked hisr.2 hauto
    | endOfInterrupt hstage =>
      intro hlength _
      have hlinked := h.linked hlength (by rw [hstage]; exact Stage.noConfusion)
      exact picOutb_linked hlinked
        (Or.inr (h.undisturbed.eoi _ _ hstage _ List.mem_cons_self))
    | iret hstage =>
      exact fun hlength _ => h.linked hlength (by rw [hstage]; exact Stage.noConfusion)

/-- The invariant holds before the boot program. -/
theorem PicSystem.Boots.inv (h : s.Boots before after) :
    PicInv before after s.view s.pair.requests s where
  undisturbed := ⟨⟨[], h.todo.symm, rfl⟩, fun intNo writes hstage =>
    absurd (h.stage.symm.trans hstage) Stage.noConfusion⟩
  inService := ⟨fun _ => h.stage, by rw [h.stage]; exact h.isr⟩
  accounted := ⟨fun l _ => by rw [h.log]; exact Pair.mem_requests, by
    rw [h.log]
    exact justified_nil _⟩
  linked := fun hlength _ => by
    rw [h.todo] at hlength
    omega

/-- The invariant holds in every state of a run. -/
theorem picRun_inv (hboot : s₀.Boots before after) (hrun : Relation.ReflTransGen PicStep s₀ s) :
    PicInv before after s₀.view s₀.pair.requests s :=
  run_invariant (PicInv before after s₀.view s₀.pair.requests) hrun hboot.inv
    fun h hstep => h.step hboot.flag hstep

/-- Outside `irq_handler`, and in the handler of a line, nothing is in service, also after a
spurious interrupt; in `irq_handler` the vector minus 32 is an index of `irq_handlers`. -/
theorem picRun_inService (hboot : s₀.Boots before after)
    (hrun : Relation.ReflTransGen PicStep s₀ s) :
    (s.stage = .main ∨ s.stage = .acknowledging ∨ (∃ intNo, s.stage = .handler intNo []) →
      s.pair.master.isr = ∅ ∧ s.pair.slave.isr = ∅) ∧
    ∀ intNo writes, s.stage = .handler intNo writes → 32 ≤ intNo.toNat ∧ intNo.toNat - 32 < 16 := by
  have hstage := (picRun_inv hboot hrun).inService.stage
  constructor
  · rintro (h | h | ⟨intNo, h⟩)
    · rwa [h] at hstage
    · rwa [h] at hstage
    · rw [h] at hstage
      exact hstage.2.2.of_nil
  · intro intNo writes h
    rw [h] at hstage
    exact ⟨hstage.1, by have := hstage.2.1; omega⟩

/-- Every interrupt is for a line that waits, or spurious; a line waits from its edge until it is
served or withdrawn; and the processor is asked for exactly when an enabled line waits. -/
theorem picRun_requests (hboot : s₀.Boots before after)
    (hrun : Relation.ReflTransGen PicStep s₀ s) :
    Justified s₀.pair.requests s.log ∧
      (∀ l, l ≠ .master cascadeLine → (l ∈ waiting s₀.pair.requests s.log ↔ s.pair.Requested l)) ∧
      (s.stage = .main → s.interruptFlag = true → (s.pair.master.int = true ↔
        ∃ l, l ≠ .master cascadeLine ∧ l ∈ waiting s₀.pair.requests s.log ∧ s.pair.Enabled l)) := by
  have hinv := picRun_inv hboot hrun
  refine ⟨hinv.accounted.justified, hinv.accounted.requests, fun hstage hflag => ?_⟩
  have hisr := hinv.inService.stage
  rw [hstage] at hisr
  have hlinked := hinv.linked (hinv.remapped hboot.flag hflag).2
    (by rw [hstage]; exact Stage.noConfusion)
  rw [Pair.int_iff_enabled hlinked hisr.1 hisr.2]
  refine exists_congr fun l => and_congr_right fun hl => ?_
  rw [hinv.accounted.requests l hl]

/-! ### Priority -/

/-- The order in which the lines are served: the slave's stand in for the cascade line. -/
def lineRank : Irq → ℕ
  | .master l => 16 * l
  | .slave l => 16 * cascadeLine + 1 + l

/-- The processor acknowledges, with nothing in between. -/
def PicSystem.acknowledged (s : PicSystem) : PicSystem :=
  if s.pulse1.stage = .cascaded then s.pulse1.pulse2 else s.pulse1

/-- With the chips set up, a master's request that is not the cascade's is served at once. -/
theorem acknowledged_master {k : Fin 8} (hmaster : s.view.master = masterConfig s.view.master.imr)
    (hk : s.pair.master.request = some k) (hne : k ≠ cascadeLine) :
    s.acknowledged.log = s.log ++ [.serve (lineVector (.master k)) (some (.master k))] := by
  have hcascade : s.pair.master.cascade = 0x04 := congrArg Config.cascade hmaster
  have hbase : s.pair.master.base = 0x20 := congrArg Config.base hmaster
  have hline : s.pair.pulse1.1 = k := by
    change s.pair.master.acknowledge.1 = k
    unfold Chip.acknowledge
    rw [hk]
  have hvector : s.pair.master.vector k = lineVector (.master k) := by
    rw [← master_vector, Config.vector, hbase]
  obtain ⟨stage, log, heq, hcases⟩ := pulse1_eq s
  rw [hcascade, hline, cascade_getLsbD, hvector, hk] at hcases
  rcases hcases with ⟨hl, -, -⟩ | ⟨-, hstage, hlog⟩
  · exact absurd (of_decide_eq_true hl) hne
  · unfold PicSystem.acknowledged
    rw [heq, if_neg (by rw [hstage]; exact Stage.noConfusion)]
    exact hlog

/-- The cascade's request is served with the slave's answer. -/
theorem acknowledged_slave {j : Fin 8} (hmaster : s.view.master = masterConfig s.view.master.imr)
    (hslave : s.view.slave = slaveConfig s.view.slave.imr)
    (hk : s.pair.master.request = some cascadeLine) (hj : s.pair.slave.request = some j) :
    s.acknowledged.log = s.log ++ [.serve (lineVector (.slave j)) (some (.slave j))] := by
  have hcascade : s.pair.master.cascade = 0x04 := congrArg Config.cascade hmaster
  have hbase : s.pair.slave.base = 0x28 := congrArg Config.base hslave
  have hline : s.pair.pulse1.1 = cascadeLine := by
    change s.pair.master.acknowledge.1 = cascadeLine
    unfold Chip.acknowledge
    rw [hk]
  have hanswer : s.pair.slave.acknowledge.1 = j := by
    unfold Chip.acknowledge
    rw [hj]
  have hvector : s.pair.slave.vector j = lineVector (.slave j) := by
    rw [← slave_vector, Config.vector, hbase]
  obtain ⟨stage, log, heq, hcases⟩ := pulse1_eq s
  rw [hcascade, hline, cascade_getLsbD] at hcases
  rcases hcases with ⟨-, hstage, hlog⟩ | ⟨hl, -, -⟩
  · unfold PicSystem.acknowledged
    rw [heq, if_pos hstage]
    change log ++ [.serve (s.pair.slave.vector s.pair.slave.acknowledge.1)
      (s.pair.slave.request.map .slave)] = _
    rw [hlog, hanswer, hvector, hj]
    rfl
  · exact absurd hl (by decide)

/-- What an acknowledgement serves is an enabled line with a request, and of these the first. -/
theorem picRun_priority (hboot : s₀.Boots before after)
    (hrun : Relation.ReflTransGen PicStep s₀ s) (hstage : s.stage = .main)
    (hflag : s.interruptFlag = true) (hint : s.pair.master.int = true) :
    ∃ l, l ≠ .master cascadeLine ∧ s.pair.Requested l ∧ s.pair.Enabled l ∧
      (∀ k, k ≠ .master cascadeLine → s.pair.Requested k → s.pair.Enabled k →
        lineRank l ≤ lineRank k) ∧
      s.acknowledged.log = s.log ++ [.serve (lineVector l) (some l)] := by
  have hinv := picRun_inv hboot hrun
  obtain ⟨⟨hmaster, hslave⟩, hlength⟩ := hinv.remapped hboot.flag hflag
  have hisr := hinv.inService.stage
  rw [hstage] at hisr
  have hlinked := hinv.linked hlength (by rw [hstage]; exact Stage.noConfusion)
  obtain ⟨k, hk⟩ := Option.isSome_iff_exists.mp hint
  obtain ⟨hpending, hmin, -⟩ := Chip.request_eq_some_iff.mp hk
  obtain ⟨hirr, hmask⟩ := Chip.mem_pending.mp hpending
  -- a slave's line that waits puts the cascade among the master's requests
  have hslaveLine : ∀ j, s.pair.Requested (.slave j) → s.pair.Enabled (.slave j) →
      k ≤ cascadeLine := by
    intro j hj hen
    have hasks : s.pair.slave.int = true :=
      (Chip.int_iff hisr.2).mpr ⟨j, Chip.mem_pending.mpr ⟨hj, hen.1⟩⟩
    exact hmin _ (Chip.mem_pending.mpr ⟨hlinked.irr.mpr hasks, hen.2⟩)
  have htwo : (cascadeLine : ℕ) = 2 := rfl
  by_cases hcascade : k = cascadeLine
  · subst hcascade
    obtain ⟨j, hj⟩ := Option.isSome_iff_exists.mp (hlinked.irr.mp hirr)
    obtain ⟨hjpending, hjmin, -⟩ := Chip.request_eq_some_iff.mp hj
    obtain ⟨hjirr, hjmask⟩ := Chip.mem_pending.mp hjpending
    refine ⟨.slave j, Irq.noConfusion, hjirr, ⟨hjmask, hmask⟩, ?_,
      acknowledged_slave hmaster hslave hk hj⟩
    rintro (i | i) hne hrequested henabled
    · have hle := hmin i (Chip.mem_pending.mpr ⟨hrequested, henabled⟩)
      have hlt : cascadeLine < i := lt_of_le_of_ne hle fun heq => hne (congrArg Irq.master heq.symm)
      have hlt : (cascadeLine : ℕ) < i := hlt
      simp only [lineRank]
      omega
    · have hle : (j : ℕ) ≤ i := hjmin i (Chip.mem_pending.mpr ⟨hrequested, henabled.1⟩)
      simp only [lineRank]
      omega
  · refine ⟨.master k, fun heq => hcascade (Irq.master.inj heq), hirr, hmask, ?_,
      acknowledged_master hmaster hk hcascade⟩
    rintro (i | i) hne hrequested henabled
    · have hle : (k : ℕ) ≤ i := hmin i (Chip.mem_pending.mpr ⟨hrequested, henabled⟩)
      simp only [lineRank]
      omega
    · have hlt : k < cascadeLine := lt_of_le_of_ne (hslaveLine i hrequested henabled) hcascade
      have hlt : (k : ℕ) < cascadeLine := hlt
      simp only [lineRank]
      omega

/-! ### Masks -/

/-- The number that `pic_unmask_irq` is given for a line. -/
def lineNumber : Irq → BitVec 8
  | .master l => BitVec.ofNat 8 l
  | .slave l => BitVec.ofNat 8 (8 + l)

/-- What one call makes of the two masks. -/
def unmaskMasks (m : BitVec 8 × BitVec 8) (irqline : BitVec 8) : BitVec 8 × BitVec 8 :=
  if irqline < 8 then (m.1 &&& lineMask irqline, m.2)
  else (m.1 &&& lineMask 2, m.2 &&& lineMask (irqline - 8))

/-- Unmasking a line acts on the two masks as `unmaskMasks` says. -/
theorem picUnmaskIrq_view (m : BitVec 8 × BitVec 8) (value : BitVec 8) (flag : Bool)
    (irqline : BitVec 8) : ∃ value',
      (picUnmaskIrq irqline).foldl (fun v op => v.access op) (unmaskView m.1 m.2 value flag) =
        unmaskView (unmaskMasks m irqline).1 (unmaskMasks m irqline).2 value' flag := by
  unfold picUnmaskIrq unmaskMasks
  split_ifs
  · exact ⟨_, rfl⟩
  · exact ⟨_, rfl⟩

/-- Unmasking a list of lines acts on the two masks line by line. -/
theorem unmaskAll_view (m : BitVec 8 × BitVec 8) (value : BitVec 8) (flag : Bool)
    (lines : List (BitVec 8)) : ∃ value',
      (lines.flatMap picUnmaskIrq).foldl (fun v op => v.access op)
          (unmaskView m.1 m.2 value flag) =
        unmaskView (lines.foldl unmaskMasks m).1 (lines.foldl unmaskMasks m).2 value' flag := by
  induction lines generalizing m value with
  | nil => exact ⟨value, rfl⟩
  | cons irqline lines ih =>
    obtain ⟨value', hone⟩ := picUnmaskIrq_view m value flag irqline
    rw [List.flatMap_cons, List.foldl_append, hone, List.foldl_cons]
    exact ih (unmaskMasks m irqline) value'

/-- The mask written for a line below 8 clears that line's bit alone. -/
theorem lineMask_master : ∀ (n : BitVec 8) (l : Fin 8), n < 8 →
    ((lineMask n).getLsbD l = false ↔ n = BitVec.ofNat 8 l) := by decide +kernel

/-- The mask written for a line from 8 on clears that line's bit of the slave alone. -/
theorem lineMask_slave : ∀ (n : BitVec 8) (l : Fin 8), 8 ≤ n → n < 16 →
    ((lineMask (n - 8)).getLsbD l = false ↔ n = BitVec.ofNat 8 (8 + l)) := by decide +kernel

/-- The mask written for line 2 clears the cascade's bit alone. -/
theorem lineMask_cascade : ∀ l : Fin 8, (lineMask 2).getLsbD l = false ↔ l = cascadeLine := by
  decide

/-- A bit is clear that was clear before, or whose line has been asked for. -/
theorem unmaskMasks_getLsbD {lines : List (BitVec 8)} (hlines : ∀ n ∈ lines, n < 16)
    (m : BitVec 8 × BitVec 8) (l : Fin 8) :
    ((lines.foldl unmaskMasks m).1.getLsbD l = false ↔ m.1.getLsbD l = false ∨
        lineNumber (.master l) ∈ lines ∨ l = cascadeLine ∧ ∃ n ∈ lines, 8 ≤ n) ∧
      ((lines.foldl unmaskMasks m).2.getLsbD l = false ↔ m.2.getLsbD l = false ∨
        lineNumber (.slave l) ∈ lines) := by
  induction lines generalizing m with
  | nil => simp
  | cons n lines ih =>
    obtain ⟨hmaster, hslave⟩ := ih (fun k hk => hlines k (List.mem_cons_of_mem _ hk))
      (unmaskMasks m n)
    have hn := hlines n List.mem_cons_self
    rw [List.foldl_cons, hmaster, hslave, List.mem_cons, List.mem_cons, List.exists_mem_cons_iff]
    unfold unmaskMasks lineNumber
    by_cases hlow : n < 8
    · have hslaveNumber : n ≠ BitVec.ofNat 8 (8 + l) := by
        have := l.isLt
        rintro rfl
        bv_omega
      have hnot : ¬ 8 ≤ n := by bv_omega
      rw [if_pos hlow]
      dsimp only
      rw [BitVec.getLsbD_and, Bool.and_eq_false_iff, lineMask_master n l hlow]
      constructor
      · grind
      · grind
    · have hmasterNumber : n ≠ BitVec.ofNat 8 l := by
        have := l.isLt
        rintro rfl
        bv_omega
      have hhigh : 8 ≤ n := by bv_omega
      rw [if_neg hlow]
      dsimp only
      rw [BitVec.getLsbD_and, BitVec.getLsbD_and, Bool.and_eq_false_iff, Bool.and_eq_false_iff,
        lineMask_cascade, lineMask_slave n l hhigh hn]
      constructor
      · grind
      · grind

/-- Whatever interrupts come between, after each call of `pic_unmask_irq` the lines enabled are
those that have been asked for, and the cascade line if one of them is the slave's. -/
theorem picRun_masks {rest : List (BitVec 8)} (hboot : s₀.Boots before (after ++ rest))
    (hrun : Relation.ReflTransGen PicStep s₀ s) (htodo : s.todo = rest.flatMap picUnmaskIrq)
    (hlines : ∀ n ∈ before ++ after, n < 16) (l : Irq) :
    s.pair.Enabled l ↔ lineNumber l ∈ before ++ after ∨
      l = .master cascadeLine ∧ ∃ n ∈ before ++ after, 8 ≤ n := by
  obtain ⟨executed, hprogram, hview⟩ := (picRun_inv hboot hrun).undisturbed.view
  have hexecuted : executed = picProgram before after := by
    have hsplit : picProgram before (after ++ rest) =
        picProgram before after ++ rest.flatMap picUnmaskIrq := by
      unfold picProgram
      simp only [List.flatMap_append, List.append_assoc, List.cons_append]
    rw [hsplit, htodo] at hprogram
    exact (List.append_cancel_right hprogram).symm
  have hmasks : ∃ value, s.view = unmaskView ((before ++ after).foldl unmaskMasks (0xFF, 0xFF)).1
      ((before ++ after).foldl unmaskMasks (0xFF, 0xFF)).2 value true := by
    obtain ⟨value, hbefore⟩ :=
      unmaskAll_view (0xFF, 0xFF) s₀.view.value s₀.view.interruptFlag before
    obtain ⟨value', hafter⟩ :=
      unmaskAll_view (before.foldl unmaskMasks (0xFF, 0xFF)) value true after
    refine ⟨value', ?_⟩
    rw [hview, hexecuted]
    unfold picProgram
    rw [List.foldl_append, List.foldl_append, picRemap_eq, hbefore, List.foldl_cons,
      List.foldl_append]
    exact hafter
  obtain ⟨value, hmasks⟩ := hmasks
  have hmaster : s.pair.master.imr = ((before ++ after).foldl unmaskMasks (0xFF, 0xFF)).1 :=
    congrArg (fun v => v.master.imr) hmasks
  have hslave : s.pair.slave.imr = ((before ++ after).foldl unmaskMasks (0xFF, 0xFF)).2 :=
    congrArg (fun v => v.slave.imr) hmasks
  have hclear : ∀ l : Fin 8, ¬ (0xFF : BitVec 8).getLsbD l = false := by decide
  have hbits := unmaskMasks_getLsbD hlines (0xFF, 0xFF)
  unfold Pair.Enabled
  rw [hmaster, hslave]
  cases l with
  | master k =>
    dsimp only
    rw [(hbits k).1, or_iff_right (hclear k), Irq.master.injEq]
  | slave k =>
    dsimp only
    rw [(hbits k).2, (hbits cascadeLine).1, or_iff_right (hclear k), or_iff_right (hclear _)]
    have hhigh : 8 ≤ lineNumber (.slave k) := by
      revert k
      decide
    constructor
    · exact fun h => Or.inl h.1
    · rintro (h | ⟨h, -⟩)
      · exact ⟨h, Or.inr ⟨rfl, _, h, hhigh⟩⟩
      · exact absurd h Irq.noConfusion

/-- The main program by itself, without an interrupt. -/
def PicSystem.accesses (ops : List PicOp) (s : PicSystem) : PicSystem :=
  ops.foldl (fun s op => { s.access op with todo := s.todo.tail }) s

/-- The accesses of the program are run without an interrupt. -/
theorem accesses_run {ops : List PicOp} (rest : List PicOp) (hstage : s.stage = .main)
    (htodo : s.todo = ops ++ rest) :
    Relation.ReflTransGen (fun s t => PicStep s t ∧ s.stage = .main) s (s.accesses ops) := by
  induction ops generalizing s with
  | nil => exact .refl
  | cons op ops ih =>
    have htail : s.todo.tail = ops ++ rest := by rw [htodo]; rfl
    have hstep : PicStep s { s.access op with todo := s.todo.tail } := by
      rw [htail]
      exact .main hstage htodo
    refine .head ⟨hstep, hstage⟩ (ih ?_ htail)
    rw [← hstage]
    cases op <;> rfl

/-- The accesses of the program make a run. -/
theorem main_run {ops : List PicOp} (rest : List PicOp) (hstage : s.stage = .main)
    (htodo : s.todo = ops ++ rest) : Relation.ReflTransGen PicStep s (s.accesses ops) :=
  (accesses_run rest hstage htodo).lift id fun _ _ h => h.1

end Runs

/-! ### The boot of the kernel -/

/-- The chips after a reset. -/
def resetChip : Chip :=
  { phase := .ready, imr := 0, base := 0, cascade := 0, autoEoi := false, level := ∅, irr := ∅,
    isr := ∅ }

/-- The timer is unmasked before the `sti`, the keyboard after it. -/
def kernelBoot : PicSystem :=
  { pair := ⟨resetChip, resetChip⟩, stage := .main, todo := picProgram [0] [1], value := 0,
    interruptFlag := false, log := [] }

/-- The kernel's own boot unmasks the timer's line in front of `sti` and the keyboard's after it. -/
theorem kernelBoot_boots : kernelBoot.Boots [0] [1] := ⟨rfl, rfl, rfl, ⟨rfl, rfl⟩, rfl⟩

/-- The kernel after its boot, when a key is pressed. -/
def keyPressed : PicSystem := (kernelBoot.accesses (picProgram [0] [1])).device .keyboard true

/-- The state with the key pressed is reached by a run. -/
theorem keyPressed_run : Relation.ReflTransGen PicStep kernelBoot keyPressed :=
  (main_run [] rfl (List.append_nil _).symm).tail
    (.device .keyboard true (by decide) (by decide))

/-- With the kernel booted, the keyboard's line is open because the program opened it. -/
theorem picRun_masks_keyPressed : keyPressed.pair.Enabled (.master 1) ↔
    lineNumber (.master 1) ∈ ([0] ++ [1] : List (BitVec 8)) ∨
      Irq.master 1 = .master cascadeLine ∧ ∃ n ∈ ([0] ++ [1] : List (BitVec 8)), 8 ≤ n :=
  picRun_masks (show kernelBoot.Boots [0] ([1] ++ []) from kernelBoot_boots) keyPressed_run rfl
    (by decide) (.master 1)

/-- Between interrupts nothing is in service. -/
theorem picRun_inService_keyPressed :
    keyPressed.pair.master.isr = ∅ ∧ keyPressed.pair.slave.isr = ∅ :=
  (picRun_inService kernelBoot_boots keyPressed_run).1 (Or.inl rfl)

/-- The pressed key is an interrupt because its line waits and is open. -/
theorem picRun_requests_keyPressed : keyPressed.pair.master.int = true ↔
    ∃ l, l ≠ .master cascadeLine ∧ l ∈ waiting kernelBoot.pair.requests keyPressed.log ∧
      keyPressed.pair.Enabled l :=
  (picRun_requests kernelBoot_boots keyPressed_run).2.2 rfl rfl

/-- The pressed key is acknowledged as the first of the waiting lines. -/
theorem picRun_priority_keyPressed :
    ∃ l, l ≠ .master cascadeLine ∧ keyPressed.pair.Requested l ∧ keyPressed.pair.Enabled l ∧
      (∀ k, k ≠ .master cascadeLine → keyPressed.pair.Requested k → keyPressed.pair.Enabled k →
        lineRank l ≤ lineRank k) ∧
      keyPressed.acknowledged.log = keyPressed.log ++ [.serve (lineVector l) (some l)] :=
  picRun_priority kernelBoot_boots keyPressed_run rfl rfl (by decide)

end AuriOS
