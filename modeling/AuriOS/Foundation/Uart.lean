import Mathlib

/-!
# The 16550 serial interface

The registers of the interface, its two FIFOs of sixteen bytes and the shift register that puts the
bytes on the wire.

* `Drain` is the transmitter at work: it keeps the bytes in their order (`Drain.sent`), and it does
  not rest before the last one is on the wire (`drains`);
* `int` says when the receiver asks for the processor; a byte that comes in only raises it
  (`int_receive`), and a byte that is read lowers it only below the trigger level (`int_read`).

Parity, framing, the modem's inputs, loop back and the interrupts of the transmitter are not
modelled.
-/

namespace Uart16550

/-- The registers, the transmitter and the receiver of the interface. -/
structure Uart where
  divisorLow : BitVec 8
  divisorHigh : BitVec 8
  interruptEnable : BitVec 8
  fifoControl : BitVec 8
  lineControl : BitVec 8
  modemControl : BitVec 8
  /-- handed over, and not yet in the shift register -/
  transmit : List (BitVec 8)
  shifter : Option (BitVec 8)
  /-- received, and not yet read -/
  received : List (BitVec 8)
  /-- a received byte has waited for long -/
  timeout : Bool
  deriving DecidableEq

namespace Uart

/-- The divisor stands in the place of the first two registers. -/
def latch (u : Uart) : Bool := u.lineControl.getLsbD 7

/-- The FIFOs are on. -/
def fifos (u : Uart) : Bool := u.fifoControl.getLsbD 0

/-- How many bytes each direction can hold. -/
def size (u : Uart) : ℕ := if u.fifos then 16 else 1

/-- The number of received bytes at which the receiver asks for the processor. -/
def trigger (u : Uart) : ℕ :=
  if u.fifos then
    match u.fifoControl.extractLsb' 6 2 with
    | 0 => 1
    | 1 => 4
    | 2 => 8
    | _ => 14
  else 1

/-- A byte for which a FIFO has no room is lost; without FIFOs it takes the place of the last. -/
def push (u : Uart) (bytes : List (BitVec 8)) (b : BitVec 8) : List (BitVec 8) :=
  if bytes.length < u.size then bytes ++ [b] else if u.fifos then bytes else [b]

/-- The FIFO control register: both FIFOs are cleared when they are turned on or off, and either at
the command of its bit. -/
def control (b : BitVec 8) (u : Uart) : Uart :=
  let turned := b.getLsbD 0 != u.fifos
  let clearReceived := turned || b.getLsbD 0 && b.getLsbD 1
  { u with
    fifoControl := if b.getLsbD 0 then b &&& 0xC9 else 0
    transmit := if turned || b.getLsbD 0 && b.getLsbD 2 then [] else u.transmit
    received := if clearReceived then [] else u.received
    timeout := u.timeout && !clearReceived }

/-- A write to a register, by its distance from the first. -/
def write (offset : ℕ) (b : BitVec 8) (u : Uart) : Uart :=
  match offset with
  | 0 => if u.latch then { u with divisorLow := b } else { u with transmit := u.push u.transmit b }
  | 1 => if u.latch then { u with divisorHigh := b } else { u with interruptEnable := b &&& 0x0F }
  | 2 => u.control b
  | 3 => { u with lineControl := b }
  | 4 => { u with modemControl := b &&& 0x1F }
  | _ => u

/-- The line status register: a byte to read, room in the transmitter, nothing left to send. -/
def status (u : Uart) : BitVec 8 :=
  (if u.received ≠ [] then 0x01 else 0) ||| (if u.transmit = [] then 0x20 else 0) |||
    if u.transmit = [] ∧ u.shifter = none then 0x40 else 0

/-- The first register is read. -/
def read (u : Uart) : BitVec 8 × Uart :=
  if u.latch then (u.divisorLow, u)
  else (u.received.headD 0, { u with received := u.received.tail, timeout := false })

/-- A byte comes in. -/
def receive (b : BitVec 8) (u : Uart) : Uart := { u with received := u.push u.received b }

/-- A received byte has waited for the time of four. -/
def expire (u : Uart) : Uart := { u with timeout := u.fifos && !u.received.isEmpty }

/-- The receiver asks for the processor.  The second output of the modem control register connects
the interface to its line. -/
def int (u : Uart) : Bool :=
  u.modemControl.getLsbD 3 && u.interruptEnable.getLsbD 0 &&
    (u.timeout || decide (u.trigger ≤ u.received.length))

/-- The bytes that were handed over and are not yet on the wire. -/
def inFlight (u : Uart) : List (BitVec 8) := u.shifter.toList ++ u.transmit

end Uart

/-! ### The transmitter -/

/-- The transmitter at work: the next byte is put in the shift register, or the shift register has
put its byte on the wire. -/
inductive Drain : Uart × List (BitVec 8) → Uart × List (BitVec 8) → Prop
  | load {u wire b rest} (htransmit : u.transmit = b :: rest) (hshifter : u.shifter = none) :
      Drain (u, wire) ({ u with transmit := rest, shifter := some b }, wire)
  | send {u wire b} (hshifter : u.shifter = some b) :
      Drain (u, wire) ({ u with shifter := none }, wire ++ [b])

section Transmitter

variable {u u' : Uart} {wire wire' : List (BitVec 8)}

/-- No byte is lost or overtaken between the interface and the wire. -/
theorem Drain.sent (h : Drain (u, wire) (u', wire')) :
    wire' ++ u'.inFlight = wire ++ u.inFlight := by
  unfold Uart.inFlight
  cases h with
  | load htransmit hshifter =>
    rw [htransmit, hshifter]
    rfl
  | send hshifter =>
    rw [hshifter, List.append_assoc]
    rfl

/-- The transmitter changes nothing that is programmed, and makes room. -/
theorem Drain.frame (h : Drain (u, wire) (u', wire')) :
    u'.fifoControl = u.fifoControl ∧ u'.lineControl = u.lineControl ∧
      u'.transmit.length ≤ u.transmit.length := by
  cases h with
  | load htransmit hshifter =>
    rw [htransmit]
    exact ⟨rfl, rfl, Nat.le_succ _⟩
  | send hshifter => exact ⟨rfl, rfl, le_rfl⟩

/-- The steps that the transmitter has before it. -/
def Uart.remaining (u : Uart) : ℕ := 2 * u.transmit.length + u.shifter.toList.length

/-- While bytes are in flight, one more step of the drain is possible and there is less to do. -/
theorem drain_step (h : u.inFlight ≠ []) (wire : List (BitVec 8)) :
    ∃ v : Uart × List (BitVec 8), Drain (u, wire) v ∧ v.1.remaining < u.remaining := by
  unfold Uart.remaining
  cases hshifter : u.shifter with
  | some b => exact ⟨_, .send hshifter, by simp⟩
  | none =>
    cases htransmit : u.transmit with
    | nil =>
      unfold Uart.inFlight at h
      rw [hshifter, htransmit] at h
      exact absurd rfl h
    | cons b rest =>
      refine ⟨_, .load htransmit hshifter, ?_⟩
      simp only [Option.toList_some, Option.toList_none, List.length_cons, List.length_nil]
      omega

/-- Left to itself, the transmitter puts everything on the wire. -/
theorem drains (u : Uart) (wire : List (BitVec 8)) : ∃ u' wire',
    Relation.ReflTransGen Drain (u, wire) (u', wire') ∧ u'.inFlight = [] := by
  induction hn : u.remaining using Nat.strong_induction_on generalizing u wire with
  | _ n ih =>
    by_cases h : u.inFlight = []
    · exact ⟨u, wire, .refl, h⟩
    · obtain ⟨⟨v, w⟩, hstep, hlt⟩ := drain_step h wire
      obtain ⟨u', wire', hrun, hempty⟩ := ih _ (hn ▸ hlt) v w rfl
      exact ⟨u', wire', .head hstep hrun, hempty⟩

/-- There is room for a byte when the FIFOs are on and not full. -/
theorem transmit_write (hlatch : u.latch = false) (hfifos : u.fifos = true)
    (hroom : u.transmit.length < 16) (b : BitVec 8) :
    u.write 0 b = { u with transmit := u.transmit ++ [b] } := by
  unfold Uart.write Uart.push Uart.size
  rw [if_neg (by rw [hlatch]; decide), hfifos, if_pos (by rw [if_pos rfl]; exact hroom)]
  rfl

/-- The transmit bit of the status says that the transmitter is empty. -/
theorem status_transmit : u.status &&& 0x20 ≠ 0 ↔ u.transmit = [] := by
  unfold Uart.status
  by_cases ht : u.transmit = [] <;> by_cases hr : u.received = [] <;>
    by_cases hs : u.shifter = none <;>
    simp [ht, hr, hs]

end Transmitter

/-! ### The receiver -/

/-- The interface is programmed to ask for the processor, and its FIFOs are on. -/
structure Uart.Listens (u : Uart) : Prop where
  latch : u.latch = false
  fifos : u.fifos = true
  connected : u.modemControl.getLsbD 3 = true
  enabled : u.interruptEnable.getLsbD 0 = true
  length : u.received.length ≤ 16
  timeout : u.timeout = true → u.received ≠ []

section Receiver

variable {u : Uart} {b : BitVec 8}

/-- The receive bit of the status says that a byte is waiting. -/
theorem status_received : u.status &&& 0x01 ≠ 0 ↔ u.received ≠ [] := by
  unfold Uart.status
  by_cases ht : u.transmit = [] <;> by_cases hr : u.received = [] <;>
    by_cases hs : u.shifter = none <;>
    simp [ht, hr, hs]

/-- Every receive trigger is at least one byte. -/
theorem trigger_pos (u : Uart) : 0 < u.trigger := by
  unfold Uart.trigger
  split
  · split <;> decide
  · decide

/-- The trigger level is that of the FIFO control register. -/
theorem trigger_congr {u u' : Uart} (h : u'.fifoControl = u.fifoControl) :
    u'.trigger = u.trigger := by
  unfold Uart.trigger Uart.fifos
  rw [h]

/-- A listening port interrupts on a timeout or when the trigger is reached. -/
theorem Uart.Listens.int_eq (h : u.Listens) :
    u.int = true ↔ u.timeout = true ∨ u.trigger ≤ u.received.length := by
  unfold Uart.int
  rw [h.connected, h.enabled]
  simp

/-- The receiver asks for the processor only when there is a byte to read. -/
theorem Uart.Listens.nonempty (h : u.Listens) (hint : u.int = true) : u.received ≠ [] := by
  rcases h.int_eq.mp hint with htimeout | htrigger
  · exact h.timeout htimeout
  · exact List.ne_nil_of_length_pos ((trigger_pos u).trans_le htrigger)

/-- With FIFOs on, a received byte is queued unless sixteen are already waiting. -/
theorem receive_received (hfifos : u.fifos = true) (b : BitVec 8) : (u.receive b).received =
    if u.received.length < 16 then u.received ++ [b] else u.received := by
  change u.push u.received b = _
  unfold Uart.push Uart.size
  rw [hfifos]
  rfl

/-- A port still listens after receiving a byte. -/
theorem Uart.Listens.receive (h : u.Listens) (b : BitVec 8) : (u.receive b).Listens := by
  have hreceived := receive_received h.fifos b
  refine ⟨h.latch, h.fifos, h.connected, h.enabled, ?_, fun htimeout => ?_⟩
  · rw [hreceived]
    split
    · rw [List.length_append]
      exact Nat.succ_le_of_lt ‹_›
    · exact h.length
  · rw [hreceived]
    split
    · exact List.append_ne_nil_of_right_ne_nil _ (List.cons_ne_nil _ _)
    · exact h.timeout htimeout

/-- A port still listens after a timeout. -/
theorem Uart.Listens.expire (h : u.Listens) : u.expire.Listens :=
  ⟨h.latch, h.fifos, h.connected, h.enabled, h.length, fun htimeout hempty => by
    change (u.fifos && !u.received.isEmpty) = true at htimeout
    change u.received = [] at hempty
    rw [hempty, h.fifos] at htimeout
    cases htimeout⟩

/-- A read hands over the oldest waiting byte and clears the timeout. -/
theorem Uart.Listens.read (h : u.Listens) :
    u.read = (u.received.headD 0, { u with received := u.received.tail, timeout := false }) := by
  unfold Uart.read
  rw [if_neg (by rw [h.latch]; decide)]

/-- A port still listens after a read. -/
theorem Uart.Listens.read_listens (h : u.Listens) : u.read.2.Listens := by
  rw [h.read]
  refine ⟨h.latch, h.fifos, h.connected, h.enabled, ?_, fun htimeout => Bool.noConfusion htimeout⟩
  exact (List.length_tail.trans_le (Nat.sub_le _ _)).trans h.length

/-- A byte that comes in takes no request back. -/
theorem Uart.Listens.int_receive (h : u.Listens) (hint : u.int = true) (b : BitVec 8) :
    (u.receive b).int = true := by
  refine (h.receive b).int_eq.mpr ((h.int_eq.mp hint).imp id fun htrigger => htrigger.trans ?_)
  rw [receive_received h.fifos]
  split
  · rw [List.length_append]
    exact Nat.le_add_right _ _
  · exact le_rfl

/-- A timeout does not withdraw the interrupt. -/
theorem Uart.Listens.int_expire (h : u.Listens) (hint : u.int = true) : u.expire.int = true := by
  refine h.expire.int_eq.mpr (Or.inl ?_)
  change (u.fifos && !u.received.isEmpty) = true
  have hempty : u.received.isEmpty = false := List.isEmpty_eq_false_iff.mpr (h.nonempty hint)
  rw [h.fifos, hempty]
  rfl

/-- After a byte has been read, the receiver asks on exactly if the trigger level is still
reached. -/
theorem Uart.Listens.int_read (h : u.Listens) :
    u.read.2.int = true ↔ u.trigger < u.received.length := by
  rw [h.read_listens.int_eq, h.read]
  have htrigger := trigger_pos u
  change false = true ∨ u.trigger ≤ u.received.tail.length ↔ _
  rw [List.length_tail]
  constructor
  · rintro (hfalse | hle)
    · cases hfalse
    · omega
  · intro hlt
    exact Or.inr (by omega)

end Receiver

end Uart16550
