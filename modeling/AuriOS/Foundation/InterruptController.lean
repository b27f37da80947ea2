import Mathlib

/-!
# The 8259A interrupt controller

One chip with eight edge-triggered inputs, and the cascade of a master and a slave whose output is
the master's input 2.  A write to a chip goes to its command port or to its data port; an
acknowledgement is one pulse on the master, and a second one on the slave when the master has
chosen the cascade.

* `Config` is what the processor has programmed: writes act on it alone, whatever the inputs do
  (`writeCommand_config`, `writeData_config`);
* `int_iff`: when a chip asks for the processor;
* `acknowledge_spec`: which input an acknowledgement takes, and the spurious input 7 when there is
  none left.

Commands that rotate the priorities or read the registers back, and level-triggered inputs, are not
modelled.
-/

namespace Pic8259

/-- What the next byte on the data port is. -/
inductive Phase
  | ready
  | icw2 (single needs4 : Bool)
  | icw3 (needs4 : Bool)
  | icw4
  deriving DecidableEq, Repr

/-- What has been programmed. -/
structure Config where
  phase : Phase
  imr : BitVec 8
  base : BitVec 8
  cascade : BitVec 8
  autoEoi : Bool
  deriving DecidableEq

/-- A chip: the inputs that are high, the requests that their rising edges left, and the inputs in
service. -/
structure Chip extends Config where
  level : Finset (Fin 8)
  irr : Finset (Fin 8)
  isr : Finset (Fin 8)
  deriving DecidableEq

/-- The input of the highest priority. -/
def highest (s : Finset (Fin 8)) : Option (Fin 8) := (List.finRange 8).find? (· ∈ s)

/-- The highest line of a set is its least member. -/
theorem highest_eq_some_iff {s : Finset (Fin 8)} {l : Fin 8} :
    highest s = some l ↔ l ∈ s ∧ ∀ k ∈ s, l ≤ k := by
  revert s l
  decide +kernel

/-- Only the empty set has no highest line. -/
theorem highest_eq_none_iff {s : Finset (Fin 8)} : highest s = none ↔ s = ∅ := by
  unfold highest
  simp [List.find?_eq_none, Finset.eq_empty_iff_forall_notMem]

namespace Config

/-- The part of a command that is kept: the first initialization word clears the mask. -/
def writeCommand (b : BitVec 8) (c : Config) : Config :=
  if b.getLsbD 4 then
    { c with
      phase := .icw2 (b.getLsbD 1) (b.getLsbD 0), imr := 0, autoEoi := c.autoEoi && b.getLsbD 0 }
  else c

/-- A write to the data port: the initialization words in turn, and then masks. -/
def writeData (b : BitVec 8) (c : Config) : Config :=
  match c.phase with
  | .ready => { c with imr := b }
  | .icw2 single needs4 =>
    { c with
      base := b &&& 0xF8
      phase := if single then (if needs4 then .icw4 else .ready) else .icw3 needs4 }
  | .icw3 needs4 => { c with cascade := b, phase := if needs4 then .icw4 else .ready }
  | .icw4 => { c with autoEoi := b.getLsbD 1, phase := .ready }

/-- The vector of an input. -/
def vector (c : Config) (l : Fin 8) : BitVec 8 := c.base ||| BitVec.ofNat 8 l

end Config

namespace Chip

/-- An input goes high or low: a rising edge leaves a request, which is gone when the input
drops. -/
def drive (l : Fin 8) (high : Bool) (c : Chip) : Chip :=
  if high then
    if l ∈ c.level then c else { c with level := insert l c.level, irr := insert l c.irr }
  else { c with level := c.level.erase l, irr := c.irr.erase l }

/-- The requests that are not masked. -/
def pending (c : Chip) : Finset (Fin 8) := c.irr.filter fun l => c.imr.getLsbD l = false

/-- The request to be served: the highest, if it is above everything in service. -/
def request (c : Chip) : Option (Fin 8) := (highest c.pending).filter fun l => ∀ k ∈ c.isr, l < k

/-- The output. -/
def int (c : Chip) : Bool := c.request.isSome

/-- A pulse of the processor takes the request to be served.  When that is gone, the chip answers
for input 7 and takes nothing. -/
def acknowledge (c : Chip) : Fin 8 × Chip :=
  match c.request with
  | some l => (l, { c with
      irr := c.irr.erase l, isr := if c.autoEoi then c.isr else insert l c.isr })
  | none => (7, c)

/-- Initialization resets the edge detection; an end of interrupt takes an input out of service, the
highest one or the one that is named. -/
def writeCommand (b : BitVec 8) (c : Chip) : Chip :=
  { c with
    toConfig := c.toConfig.writeCommand b
    irr := if b.getLsbD 4 then ∅ else c.irr
    isr := if b.getLsbD 4 || b.getLsbD 3 || !b.getLsbD 5 then c.isr
      else if b.getLsbD 6 then c.isr.erase (Fin.ofNat 8 (b &&& 7).toNat)
      else (highest c.isr).elim c.isr c.isr.erase }

/-- A write to the data port. -/
def writeData (b : BitVec 8) (c : Chip) : Chip := { c with toConfig := c.toConfig.writeData b }

section Chip

variable {c : Chip} {l : Fin 8} {high : Bool} {b : BitVec 8}

/-- A line's level is no part of the configuration. -/
@[simp] theorem drive_config : (c.drive l high).toConfig = c.toConfig := by
  unfold drive
  split_ifs <;> rfl

/-- A line's level says nothing about what is in service. -/
@[simp] theorem drive_isr : (c.drive l high).isr = c.isr := by
  unfold drive
  split_ifs <;> rfl

/-- The level register follows the line that is driven. -/
theorem drive_level :
    (c.drive l high).level = if high then insert l c.level else c.level.erase l := by
  unfold drive
  split_ifs with h hl
  · exact (Finset.insert_eq_of_mem hl).symm
  · rfl
  · rfl

/-- Other inputs keep their requests. -/
theorem mem_drive_irr {k : Fin 8} (hk : k ≠ l) : k ∈ (c.drive l high).irr ↔ k ∈ c.irr := by
  unfold drive
  split_ifs
  · exact Iff.rfl
  · simp [hk]
  · simp [hk]

/-- A command write changes the configuration as the configuration alone prescribes. -/
@[simp] theorem writeCommand_config : (c.writeCommand b).toConfig = c.toConfig.writeCommand b := rfl

/-- A data write changes the configuration as the configuration alone prescribes. -/
@[simp] theorem writeData_config : (c.writeData b).toConfig = c.toConfig.writeData b := rfl

/-- An acknowledge leaves the configuration alone. -/
@[simp] theorem acknowledge_config : c.acknowledge.2.toConfig = c.toConfig := by
  unfold acknowledge
  cases c.request <;> rfl

/-- An acknowledge leaves the levels of the lines alone. -/
@[simp] theorem acknowledge_level : c.acknowledge.2.level = c.level := by
  unfold acknowledge
  cases c.request <;> rfl

/-- A line is pending when it is requested and not masked. -/
theorem mem_pending : l ∈ c.pending ↔ l ∈ c.irr ∧ c.imr.getLsbD l = false := Finset.mem_filter

/-- The line requested is the highest pending one, above everything in service. -/
theorem request_eq_some_iff : c.request = some l ↔
    l ∈ c.pending ∧ (∀ k ∈ c.pending, l ≤ k) ∧ ∀ k ∈ c.isr, l < k := by
  unfold request
  rw [Option.filter_eq_some_iff, highest_eq_some_iff, decide_eq_true_iff, and_assoc]

/-- With nothing in service, a chip asks for the processor exactly when a request is pending. -/
theorem int_iff (h : c.isr = ∅) : c.int = true ↔ c.pending.Nonempty := by
  unfold int request
  rw [h]
  cases hp : highest c.pending with
  | none => simp [highest_eq_none_iff.mp hp]
  | some l =>
    have hl := (highest_eq_some_iff.mp hp).1
    simp [Finset.nonempty_of_ne_empty (Finset.ne_empty_of_mem hl)]

/-- An acknowledgement takes the request to be served into service, or answers for input 7. -/
theorem acknowledge_spec (h : c.isr = ∅) (hauto : c.autoEoi = false) :
    (c.request = some c.acknowledge.1 ∧ c.acknowledge.2.isr = {c.acknowledge.1} ∧
      c.acknowledge.2.irr = c.irr.erase c.acknowledge.1) ∨
    (c.request = none ∧ c.acknowledge.1 = 7 ∧ c.acknowledge.2 = c) := by
  unfold acknowledge
  cases hr : c.request with
  | some l =>
    refine Or.inl ⟨rfl, ?_, rfl⟩
    dsimp only
    rw [hauto, h]
    rfl
  | none => exact Or.inr ⟨rfl, rfl, rfl⟩

/-- After a request has been taken, the others wait: they are below it. -/
theorem int_of_inService (hisr : c.isr = {l}) (hmin : ∀ k ∈ c.pending, l ≤ k) : c.int = false := by
  unfold int
  rw [Option.isSome_eq_false_iff, Option.isNone_iff_eq_none, Option.eq_none_iff_forall_ne_some]
  intro k hk
  obtain ⟨hpending, -, habove⟩ := request_eq_some_iff.mp hk
  rw [hisr] at habove
  exact absurd (hmin k hpending) (not_le.mpr (habove l (Finset.mem_singleton_self l)))

/-- The non-specific end of interrupt. -/
def endOfInterrupt : BitVec 8 := 0x20

/-- With at most one line in service, an end of interrupt clears the register. -/
theorem writeCommand_endOfInterrupt (h : c.isr = ∅ ∨ ∃ l, c.isr = {l}) :
    c.writeCommand endOfInterrupt = { c with isr := ∅ } := by
  have hisr : (highest c.isr).elim c.isr c.isr.erase = ∅ := by
    rcases h with h | ⟨l, h⟩
    · rw [h]
      rfl
    · have hl : highest c.isr = some l := by
        rw [h, highest_eq_some_iff]
        exact ⟨Finset.mem_singleton_self l, fun k hk => (Finset.mem_singleton.mp hk).ge⟩
      rw [hl, Option.elim_some, h]
      exact Finset.erase_singleton l
  have hwrite : c.writeCommand endOfInterrupt =
      { c with isr := (highest c.isr).elim c.isr c.isr.erase } := rfl
  rw [hwrite, hisr]

end Chip

end Chip

/-! ### The cascade -/

/-- A master and a slave. -/
structure Pair where
  master : Chip
  slave : Chip
  deriving DecidableEq

/-- The master's input for the slave's output. -/
def cascadeLine : Fin 8 := 2

/-- The inputs of the pair. -/
inductive Irq
  | master (l : Fin 8)
  | slave (l : Fin 8)
  deriving DecidableEq, Repr

/-- The timer of a PC. -/
def Irq.timer : Irq := .master 0

/-- The keyboard of a PC. -/
def Irq.keyboard : Irq := .master 1

/-- The first serial interface of a PC. -/
def Irq.serial : Irq := .master 4

/-- The lines of the slave. -/
def Irq.isSlave : Irq → Bool
  | .master _ => false
  | .slave _ => true

namespace Pair

/-- The slave's output drives the master's input. -/
def settle (p : Pair) : Pair := { p with master := p.master.drive cascadeLine p.slave.int }

/-- A device drives a line.  The cascade line has no device. -/
def setLine (l : Irq) (high : Bool) (p : Pair) : Pair :=
  match l with
  | .master l => if l = cascadeLine then p else { p with master := p.master.drive l high }
  | .slave l => { p with slave := p.slave.drive l high }.settle

/-- The first pulse of an acknowledgement, to the master. -/
def pulse1 (p : Pair) : Fin 8 × Pair :=
  (p.master.acknowledge.1, { p with master := p.master.acknowledge.2 }.settle)

/-- The second pulse, to the slave. -/
def pulse2 (p : Pair) : Fin 8 × Pair :=
  (p.slave.acknowledge.1, { p with slave := p.slave.acknowledge.2 }.settle)

/-- A line is high. -/
def isHigh (p : Pair) : Irq → Bool
  | .master l => l ∈ p.master.level
  | .slave l => l ∈ p.slave.level

/-- A line has a request. -/
def Requested (p : Pair) : Irq → Prop
  | .master l => l ∈ p.master.irr
  | .slave l => l ∈ p.slave.irr

/-- The lines with a request. -/
def requests (p : Pair) : Finset Irq := p.master.irr.image .master ∪ p.slave.irr.image .slave

/-- The listed requests are the requested lines. -/
theorem mem_requests {p : Pair} {l : Irq} : l ∈ p.requests ↔ p.Requested l := by
  unfold requests
  cases l <;> simp [Requested]

instance (p : Pair) (l : Irq) : Decidable (p.Requested l) :=
  decidable_of_iff (l ∈ p.requests) mem_requests

/-- A line is not masked; the slave's lines need the cascade line as well. -/
def Enabled (p : Pair) : Irq → Prop
  | .master l => p.master.imr.getLsbD l = false
  | .slave l => p.slave.imr.getLsbD l = false ∧ p.master.imr.getLsbD cascadeLine = false

section Pair

variable (p : Pair) (l : Irq) (high : Bool)

/-- The cascade reads the slave and does not change it. -/
@[simp] theorem settle_slave : p.settle.slave = p.slave := rfl

/-- The cascade leaves the master's configuration alone. -/
@[simp] theorem settle_config : p.settle.master.toConfig = p.master.toConfig := Chip.drive_config

/-- The cascade leaves the master's in-service register alone. -/
@[simp] theorem settle_isr : p.settle.master.isr = p.master.isr := Chip.drive_isr

/-- A line's level is no part of either configuration. -/
theorem setLine_config : (p.setLine l high).master.toConfig = p.master.toConfig ∧
    (p.setLine l high).slave.toConfig = p.slave.toConfig := by
  unfold setLine
  cases l with
  | master l =>
    dsimp only
    split_ifs <;> simp
  | slave l => simp

/-- A line's level changes neither in-service register. -/
theorem setLine_isr : (p.setLine l high).master.isr = p.master.isr ∧
    (p.setLine l high).slave.isr = p.slave.isr := by
  unfold setLine
  cases l with
  | master l =>
    dsimp only
    split_ifs <;> simp
  | slave l => simp

/-- The first acknowledge pulse changes neither configuration, and nothing of the slave. -/
theorem pulse1_config :
    p.pulse1.2.master.toConfig = p.master.toConfig ∧ p.pulse1.2.slave = p.slave :=
  ⟨(settle_config _).trans Chip.acknowledge_config, rfl⟩

/-- The second acknowledge pulse changes neither configuration. -/
theorem pulse2_config : p.pulse2.2.master.toConfig = p.master.toConfig ∧
    p.pulse2.2.slave.toConfig = p.slave.toConfig :=
  ⟨settle_config _, Chip.acknowledge_config⟩

variable {p l high}

/-! ### Requests -/

/-- The cascade does not touch the requests of the devices. -/
theorem requested_settle {k : Irq} (hk : k ≠ .master cascadeLine) :
    p.settle.Requested k ↔ p.Requested k := by
  cases k with
  | master k => exact Chip.mem_drive_irr fun h => hk (congrArg Irq.master h)
  | slave k => exact Iff.rfl

/-- After an edge, a line has a request exactly when the edge was rising. -/
theorem requested_setLine_self (hl : l ≠ .master cascadeLine) (hchange : p.isHigh l ≠ high) :
    (p.setLine l high).Requested l ↔ high = true := by
  have hdrive : ∀ (c : Chip) (k : Fin 8), decide (k ∈ c.level) ≠ high →
      (k ∈ (c.drive k high).irr ↔ high = true) := by
    intro c k hk
    unfold Chip.drive
    cases high
    · simp
    · have hlow : k ∉ c.level := fun hmem => hk (decide_eq_true hmem)
      simp [hlow]
  cases l with
  | master l =>
    unfold setLine
    dsimp only
    rw [if_neg fun h => hl (congrArg Irq.master h)]
    exact hdrive p.master l hchange
  | slave l => exact hdrive p.slave l hchange

/-- A line's level says nothing about the requests of the other lines. -/
theorem requested_setLine_of_ne {k : Irq} (hk : k ≠ .master cascadeLine) (hkl : k ≠ l) :
    (p.setLine l high).Requested k ↔ p.Requested k := by
  cases l with
  | master l =>
    unfold setLine
    dsimp only
    split_ifs
    · exact Iff.rfl
    · cases k with
      | master k => exact Chip.mem_drive_irr fun h => hkl (congrArg Irq.master h)
      | slave k => exact Iff.rfl
  | slave l =>
    refine (requested_settle hk).trans ?_
    cases k with
    | master k => exact Iff.rfl
    | slave k => exact Chip.mem_drive_irr fun h => hkl (congrArg Irq.slave h)

/-- A pulse takes the request that the chip answers for, and no other. -/
theorem mem_acknowledge_irr {c : Chip} {k : Fin 8} :
    k ∈ c.acknowledge.2.irr ↔ k ∈ c.irr ∧ c.request ≠ some k := by
  unfold Chip.acknowledge
  cases c.request with
  | some j =>
    dsimp only
    rw [Finset.mem_erase, and_comm, ne_comm, Ne, Ne, Option.some_inj]
  | none => simp

/-- The first pulse takes the master's chosen request and leaves the others. -/
theorem requested_pulse1 {k : Irq} (hk : k ≠ .master cascadeLine) :
    p.pulse1.2.Requested k ↔ p.Requested k ∧ p.master.request.map .master ≠ some k := by
  refine (requested_settle hk).trans ?_
  cases k with
  | master k =>
    refine mem_acknowledge_irr.trans (and_congr_right fun _ => not_congr ?_)
    cases p.master.request <;> simp
  | slave k => cases p.master.request <;> simp [Requested]

/-- The second pulse takes the slave's chosen request and leaves the others. -/
theorem requested_pulse2 {k : Irq} (hk : k ≠ .master cascadeLine) :
    p.pulse2.2.Requested k ↔ p.Requested k ∧ p.slave.request.map .slave ≠ some k := by
  refine (requested_settle hk).trans ?_
  cases k with
  | master k => cases p.slave.request <;> simp [Requested]
  | slave k =>
    refine mem_acknowledge_irr.trans (and_congr_right fun _ => not_congr ?_)
    cases p.slave.request <;> simp

/-! ### The cascade line -/

/-- The master has seen what the slave asks for. -/
structure Linked (p : Pair) : Prop where
  irr : cascadeLine ∈ p.master.irr ↔ p.slave.int = true
  level : cascadeLine ∈ p.master.level ↔ p.slave.int = true

/-- An edge of the slave's output reaches the master, if the last one did. -/
theorem settle_linked (h : cascadeLine ∈ p.master.irr ↔ cascadeLine ∈ p.master.level) :
    p.settle.Linked := by
  unfold settle Chip.drive
  cases hint : p.slave.int
  · exact ⟨by simp [hint], by simp [hint]⟩
  · by_cases hlevel : cascadeLine ∈ p.master.level
    · exact ⟨by simp [hint, hlevel, h.mpr hlevel], by simp [hint, hlevel]⟩
    · exact ⟨by simp [hint, hlevel], by simp [hint, hlevel]⟩

/-- In a linked pair the cascade is requested exactly while the slave holds it high. -/
theorem Linked.coupled (h : p.Linked) : cascadeLine ∈ p.master.irr ↔ cascadeLine ∈ p.master.level :=
  h.irr.trans h.level.symm

/-- When the slave asks for nothing, the master sees that at once. -/
theorem settle_linked_of_int (h : p.slave.int = false) : p.settle.Linked := by
  unfold settle Chip.drive
  rw [h]
  exact ⟨by simp [h], by simp [h]⟩

/-- A device's line moves the pair from linked to linked. -/
theorem setLine_linked (h : p.Linked) (hl : l ≠ .master cascadeLine) :
    (p.setLine l high).Linked := by
  cases l with
  | master l =>
    have hne : cascadeLine ≠ l := fun hne => hl (congrArg Irq.master hne.symm)
    unfold setLine
    dsimp only
    rw [if_neg hne.symm]
    refine ⟨(Chip.mem_drive_irr hne).trans h.irr, ?_⟩
    refine Iff.trans ?_ h.level
    rw [Chip.drive_level]
    cases high <;> simp [hne]
  | slave l => exact settle_linked h.coupled

/-- After its answer the slave asks for nothing: what is left is below the request that it took. -/
theorem acknowledge_int {c : Chip} (h : c.isr = ∅) (hauto : c.autoEoi = false) :
    c.acknowledge.2.int = false := by
  obtain ⟨hrequest, hisr, -⟩ | ⟨hrequest, -, hsame⟩ := Chip.acknowledge_spec h hauto
  · refine Chip.int_of_inService hisr fun k hk => ?_
    obtain ⟨-, hmin, -⟩ := Chip.request_eq_some_iff.mp hrequest
    refine hmin k ?_
    rw [Chip.mem_pending] at hk ⊢
    rw [Chip.acknowledge_config] at hk
    exact ⟨(mem_acknowledge_irr.mp hk.1).1, hk.2⟩
  · rw [hsame]
    unfold Chip.int
    rw [hrequest]
    rfl

/-- The second pulse leaves the pair linked when the slave served nothing before it. -/
theorem pulse2_linked (h : p.slave.isr = ∅) (hauto : p.slave.autoEoi = false) :
    p.pulse2.2.Linked := settle_linked_of_int (acknowledge_int h hauto)

/-- The master's pulse leaves the cascade line alone unless it takes it. -/
theorem pulse1_linked (h : p.Linked) (hrequest : p.master.request ≠ some cascadeLine) :
    p.pulse1.2.Linked := by
  refine settle_linked ?_
  dsimp only
  rw [mem_acknowledge_irr, Chip.acknowledge_level, h.coupled]
  exact and_iff_left hrequest

/-- With nothing in service, the processor is asked for exactly when an enabled line has a
request. -/
theorem int_iff_enabled (h : p.Linked) (hmaster : p.master.isr = ∅) (hslave : p.slave.isr = ∅) :
    p.master.int = true ↔ ∃ l, l ≠ .master cascadeLine ∧ p.Requested l ∧ p.Enabled l := by
  rw [Chip.int_iff hmaster]
  constructor
  · rintro ⟨k, hk⟩
    obtain ⟨hirr, hmask⟩ := Chip.mem_pending.mp hk
    by_cases hcascade : k = cascadeLine
    · subst hcascade
      obtain ⟨j, hj⟩ := (Chip.int_iff hslave).mp (h.irr.mp hirr)
      obtain ⟨hjirr, hjmask⟩ := Chip.mem_pending.mp hj
      exact ⟨.slave j, Irq.noConfusion, hjirr, hjmask, hmask⟩
    · exact ⟨.master k, fun heq => hcascade (Irq.master.inj heq), hirr, hmask⟩
  · rintro ⟨l, hl, hrequested, henabled⟩
    cases l with
    | master k => exact ⟨k, Chip.mem_pending.mpr ⟨hrequested, henabled⟩⟩
    | slave j =>
      have hint : p.slave.int = true :=
        (Chip.int_iff hslave).mpr ⟨j, Chip.mem_pending.mpr ⟨hrequested, henabled.1⟩⟩
      exact ⟨cascadeLine, Chip.mem_pending.mpr ⟨h.irr.mpr hint, henabled.2⟩⟩

end Pair

end Pair

end Pic8259
