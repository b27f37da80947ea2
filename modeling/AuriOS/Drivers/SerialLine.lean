import AuriOS.Foundation.Program
import AuriOS.Foundation.Uart
import AuriOS.Lib.Strings

/-!
# Bytes to the serial line

`serial_write_char` waits until the FIFO of the transmitter is empty and hands it one byte.  Between
the two an interrupt may come in, whose handler writes to the same line.

* `serialInit_listens`: what `serial_init` leaves, whatever state the interface was in;
* `serialRun_wire`: with up to sixteen writers inside each other no byte is lost or overtaken, the
  text of an inner writer is not broken up, and every writer can come to its end.
-/

namespace AuriOS

open Uart16550 Program

/-! ### `serial.c` -/

/-- The writes of `serial_init`, the last one in the test build. -/
def serialInit (testMode : Bool) : List (ℕ × Byte) :=
  [(1, 0x00), (3, 0x80), (0, 0x03), (1, 0x00), (3, 0x03), (2, 0xC7), (4, 0x0B)] ++
    if testMode then [(1, 0x01)] else []

/-- A sequence of writes to the registers. -/
def outs (writes : List (ℕ × Byte)) (u : Uart) : Uart := writes.foldl (fun u w => u.write w.1 w.2) u

/-- `serial_is_transmit_empty`. -/
def serialIsTransmitEmpty (u : Uart) : Byte := u.status &&& 0x20

/-- The bytes that `serial_write_string` writes. -/
def serialWriteString (str : List Byte) : List Byte := str.takeWhile (· ≠ 0)

/-- The bytes that `klog` writes. -/
def klogBytes (level msg : List Byte) : List Byte :=
  [byte '['] ++ serialWriteString level ++ serialWriteString (literal "] ") ++
    serialWriteString msg ++
    [byte '\n', byte '\r']

/-- A call that writes to the line. -/
inductive SerialCall
  | writeChar (c : Byte)
  | writeString (str : List Byte)
  | klog (level msg : List Byte)

/-- The bytes that a call writes. -/
def SerialCall.bytes : SerialCall → List Byte
  | .writeChar c => [c]
  | .writeString str => serialWriteString str
  | .klog level msg => klogBytes level msg

/-- A call that has not returned. -/
structure Writer where
  /-- its number -/
  id : ℕ
  /-- `serial_is_transmit_empty` has found room for the next byte -/
  ready : Bool
  rest : List Byte

/-- The interface, the wire, the open calls and the record of what they write. -/
structure SerialLine where
  uart : Uart
  wire : List Byte
  /-- the texts of all calls -/
  texts : List (List Byte)
  /-- the calls that have not returned, the innermost first -/
  stack : List Writer
  /-- the bytes handed to the interface, each with the number of its call -/
  log : List (ℕ × Byte)

/-- One step of the interface or of the innermost open call. -/
inductive SerialStep : SerialLine → SerialLine → Prop
  | drain {z u wire} (hdrain : Drain (z.uart, z.wire) (u, wire)) :
      SerialStep z { z with uart := u, wire := wire }
  /-- one turn of the loop of `serial_write_char` -/
  | poll {z id b rest below} (hstack : z.stack = ⟨id, false, b :: rest⟩ :: below) :
      SerialStep z
        { z with stack := ⟨id, serialIsTransmitEmpty z.uart ≠ 0, b :: rest⟩ :: below }
  | out {z id b rest below} (hstack : z.stack = ⟨id, true, b :: rest⟩ :: below) :
      SerialStep z { z with
        uart := z.uart.write 0 b
        stack := ⟨id, false, rest⟩ :: below
        log := z.log ++ [(id, b)] }
  /-- the program that runs, or the handler of an interrupt at any moment, makes a call -/
  | call {z} (c : SerialCall) (hdepth : z.stack.length < 16) :
      SerialStep z { z with
        texts := z.texts ++ [c.bytes], stack := ⟨z.texts.length, false, c.bytes⟩ :: z.stack }
  | ret {z id ready below} (hstack : z.stack = ⟨id, ready, []⟩ :: below) :
      SerialStep z { z with stack := below }

/-- The bytes that one call has handed over. -/
def handedOver (i : ℕ) (log : List (ℕ × Byte)) : List Byte :=
  (log.filter fun e => e.1 = i).map Prod.snd

/-! ### The initialization -/

/-- The interface is programmed for 38400 baud and eight bits, its FIFOs are on and empty, and the
divisor is no longer in front of them. -/
theorem serialInit_uart (testMode : Bool) (u : Uart) : outs (serialInit testMode) u =
    { u with
      divisorLow := 3, divisorHigh := 0, lineControl := 3, fifoControl := 0xC1, modemControl := 0x0B
      interruptEnable := if testMode then 1 else if u.latch then u.interruptEnable else 0
      transmit := [], received := [], timeout := false } := by
  cases testMode <;> cases hlatch : u.lineControl[7] <;>
    simp [outs, serialInit, Uart.write, Uart.control, Uart.latch, hlatch]

/-- After `serial_init` the divisor latch is closed. -/
theorem serialInit_latch (testMode : Bool) (u : Uart) :
    (outs (serialInit testMode) u).latch = false := by
  rw [serialInit_uart]
  exact (by decide : (3 : BitVec 8).getLsbD 7 = false)

/-- After `serial_init` the FIFOs are on. -/
theorem serialInit_fifos (testMode : Bool) (u : Uart) :
    (outs (serialInit testMode) u).fifos = true := by
  rw [serialInit_uart]
  exact (by decide : (0xC1 : BitVec 8).getLsbD 0 = true)

/-- After `serial_init` the receive trigger is fourteen bytes. -/
theorem serialInit_trigger (testMode : Bool) (u : Uart) :
    (outs (serialInit testMode) u).trigger = 14 := by
  have hfifo : (outs (serialInit testMode) u).fifoControl = 0xC1 := by rw [serialInit_uart]
  unfold Uart.trigger Uart.fifos
  rw [hfifo]
  decide

/-- In the test build the receiver asks for the processor. -/
theorem serialInit_listens (u : Uart) : (outs (serialInit true) u).Listens := by
  have hconnected : (0x0B : BitVec 8).getLsbD 3 = true := by decide
  have henabled : (1 : BitVec 8).getLsbD 0 = true := by decide
  refine ⟨serialInit_latch true u, serialInit_fifos true u, ?_, ?_, ?_, ?_⟩ <;> rw [serialInit_uart]
  · exact hconnected
  · exact henabled
  · exact Nat.zero_le _
  · exact fun h => Bool.noConfusion h

/-! ### Runs -/

section Lists

variable {α : Type} {l log : List α} {y e : α}

/-- A sequence found in a longer log was there before, or ends with the new entry. -/
theorem concat_sublist_concat (h : (l ++ [y]).Sublist (log ++ [e])) :
    (l ++ [y]).Sublist log ∨ y = e ∧ l.Sublist log := by
  obtain ⟨a, b, heq, ha, hb⟩ := List.sublist_append_iff.mp h
  rcases List.sublist_singleton.mp hb with rfl | rfl
  · rw [List.append_nil] at heq
    exact Or.inl (heq ▸ ha)
  · obtain ⟨rfl, hlast⟩ := List.append_inj' heq rfl
    exact Or.inr ⟨List.singleton_inj.mp hlast, ha⟩

end Lists

/-- What holds in every state of a run. -/
structure SerialInv (wire₀ : List Byte) (z : SerialLine) : Prop where
  latch : z.uart.latch = false
  fifos : z.uart.fifos = true
  depth : z.stack.length ≤ 16
  /-- every writer that has found the FIFO empty finds room, even if those above it write first -/
  room : z.uart.transmit.length + z.stack.countP (·.ready) ≤ 16
  sent : z.wire ++ z.uart.inFlight = wire₀ ++ z.log.map Prod.snd
  /-- a writer was called after those below it -/
  newer : z.stack.Pairwise fun w v => v.id < w.id
  live : ∀ w ∈ z.stack, z.texts[w.id]? = some (handedOver w.id z.log ++ w.rest)
  returned : ∀ i text, z.texts[i]? = some text → (∀ w ∈ z.stack, w.id ≠ i) →
    handedOver i z.log = text
  logged : ∀ e ∈ z.log, e.1 < z.texts.length
  /-- while a writer has not returned, those called before it do not write -/
  waits : ∀ w ∈ z.stack, ∀ i < w.id, ∀ a b, ¬ [(w.id, a), (i, b)].Sublist z.log
  unbroken : ∀ i j a b c, i < j → ¬ [(j, a), (i, b), (j, c)].Sublist z.log

section Runs

variable {wire₀ : List Byte} {z z' z₀ : SerialLine} {w : Writer} {below : List Writer}
  {id : ℕ} {b : Byte} {rest : List Byte}

/-- One more byte of the log was handed over by its own call. -/
theorem handedOver_concat (i id : ℕ) (log : List (ℕ × Byte)) (b : Byte) :
    handedOver i (log ++ [(id, b)]) = handedOver i log ++ if id = i then [b] else [] := by
  unfold handedOver
  rw [List.filter_append, List.map_append]
  by_cases h : id = i <;> simp [h]

/-- The invariant is kept while the transmitter drains. -/
theorem SerialInv.drain (h : SerialInv wire₀ z) {u : Uart} {wire : List Byte}
    (hdrain : Drain (z.uart, z.wire) (u, wire)) :
    SerialInv wire₀ { z with uart := u, wire := wire } := by
  obtain ⟨hfifo, hline, hlength⟩ := hdrain.frame
  refine { h with
    latch := (congrArg (·.getLsbD 7) hline).trans h.latch
    fifos := (congrArg (·.getLsbD 0) hfifo).trans h.fifos
    room := (Nat.add_le_add_right hlength _).trans h.room
    sent := hdrain.sent.trans h.sent }

/-- The invariant is kept when a call sees the transmitter empty. -/
theorem SerialInv.poll (h : SerialInv wire₀ z)
    (hstack : z.stack = ⟨id, false, b :: rest⟩ :: below) :
    SerialInv wire₀
      { z with stack := ⟨id, serialIsTransmitEmpty z.uart ≠ 0, b :: rest⟩ :: below } := by
  have hdepth := h.depth
  have hroom := h.room
  have hnewer := h.newer
  have hlive := h.live
  have hreturned := h.returned
  have hwaits := h.waits
  rw [hstack] at hdepth hroom hnewer hlive hreturned hwaits
  rw [List.forall_mem_cons] at hlive hwaits
  refine { h with
    depth := hdepth
    room := ?_
    newer := List.pairwise_cons.mpr (List.pairwise_cons.mp hnewer)
    live := List.forall_mem_cons.mpr hlive
    returned := fun i text htext hne => hreturned i text htext
      (List.forall_mem_cons.mpr (List.forall_mem_cons.mp hne))
    waits := List.forall_mem_cons.mpr hwaits }
  have hbelow : below.countP (·.ready) ≤ below.length := List.countP_le_length
  rw [List.length_cons] at hdepth
  rw [List.countP_cons_of_neg Bool.false_ne_true] at hroom
  change z.uart.transmit.length + List.countP _ _ ≤ 16
  by_cases hempty : z.uart.transmit = []
  · rw [hempty, List.countP_cons]
    split
    · simp only [List.length_nil]
      omega
    · simp only [List.length_nil]
      omega
  · have hstatus : serialIsTransmitEmpty z.uart = 0 :=
      not_not.mp fun hne => hempty (status_transmit.mp hne)
    rw [hstatus, List.countP_cons_of_neg (by simp)]
    exact hroom

/-- The invariant is kept when a call writes its next byte. -/
theorem SerialInv.out (h : SerialInv wire₀ z) (hstack : z.stack = ⟨id, true, b :: rest⟩ :: below) :
    SerialInv wire₀ { z with
      uart := z.uart.write 0 b
      stack := ⟨id, false, rest⟩ :: below
      log := z.log ++ [(id, b)] } := by
  have hdepth := h.depth
  have hroom := h.room
  have hnewer := h.newer
  have hlive := h.live
  have hreturned := h.returned
  have hwaits := h.waits
  rw [hstack] at hdepth hroom hnewer hlive hreturned hwaits
  rw [List.forall_mem_cons] at hlive hwaits
  rw [List.countP_cons_of_pos (by rfl)] at hroom
  have hbelow : ∀ v ∈ below, v.id < id := (List.pairwise_cons.mp hnewer).1
  have hlt : id < z.texts.length := (List.getElem?_eq_some_iff.mp hlive.1).1
  have hwrite := transmit_write h.latch h.fifos (by omega) b
  refine
    { latch := ?_, fifos := ?_, depth := hdepth, room := ?_, sent := ?_
      newer := List.pairwise_cons.mpr (List.pairwise_cons.mp hnewer)
      live := List.forall_mem_cons.mpr ⟨?_, fun v hv => ?_⟩, returned := fun i text htext hne => ?_
      logged := ?_, waits := List.forall_mem_cons.mpr ⟨?_, fun v hv => ?_⟩
      unbroken := fun i j a c d hij hsub => ?_ }
  · change (z.uart.write 0 b).latch = false
    rw [hwrite]
    exact h.latch
  · change (z.uart.write 0 b).fifos = true
    rw [hwrite]
    exact h.fifos
  · change (z.uart.write 0 b).transmit.length + List.countP _ (_ :: below) ≤ 16
    rw [hwrite, List.countP_cons_of_neg Bool.false_ne_true, List.length_append]
    simp only [List.length_singleton]
    omega
  · change z.wire ++ (z.uart.write 0 b).inFlight = _
    rw [hwrite, List.map_append, ← List.append_assoc, ← h.sent]
    simp [Uart.inFlight]
  · change z.texts[id]? = _
    rw [handedOver_concat, if_pos rfl, List.append_assoc]
    exact hlive.1
  · rw [handedOver_concat, if_neg (hbelow v hv).ne', List.append_nil]
    exact hlive.2 v hv
  · have hne' := List.forall_mem_cons.mp hne
    rw [handedOver_concat, if_neg hne'.1, List.append_nil]
    exact hreturned i text htext (List.forall_mem_cons.mpr hne')
  · intro e he
    rcases List.mem_append.mp he with he | he
    · exact h.logged e he
    · rw [List.mem_singleton.mp he]
      exact hlt
  · -- the new entry is the writer's own
    intro i hi a c hsub
    rcases concat_sublist_concat (l := [(id, a)]) hsub with hsub | ⟨heq, -⟩
    · exact hwaits.1 i hi a c hsub
    · exact hi.ne (congrArg Prod.fst heq)
  · -- or that of one called later
    intro i hi a c hsub
    rcases concat_sublist_concat (l := [(v.id, a)]) hsub with hsub | ⟨heq, -⟩
    · exact hwaits.2 v hv i hi a c hsub
    · exact (hi.trans (hbelow v hv)).ne (congrArg Prod.fst heq)
  · rcases concat_sublist_concat (l := [(j, a), (i, c)]) hsub with hbefore | ⟨heq, hbefore⟩
    · exact h.unbroken i j a c d hij hbefore
    · obtain rfl : j = id := congrArg Prod.fst heq
      exact hwaits.1 i hij a c hbefore

/-- The invariant is kept when a call begins. -/
theorem SerialInv.call (h : SerialInv wire₀ z) (c : SerialCall) (hdepth : z.stack.length < 16) :
    SerialInv wire₀ { z with
      texts := z.texts ++ [c.bytes], stack := ⟨z.texts.length, false, c.bytes⟩ :: z.stack } := by
  have hlt : ∀ v ∈ z.stack, v.id < z.texts.length := fun v hv =>
    (List.getElem?_eq_some_iff.mp (h.live v hv)).1
  have hnone : handedOver z.texts.length z.log = [] := by
    unfold handedOver
    rw [List.filter_eq_nil_iff.mpr fun e he => by simpa using (h.logged e he).ne]
    rfl
  refine { h with
    depth := hdepth
    room := h.room
    newer := List.pairwise_cons.mpr ⟨hlt, h.newer⟩
    live := List.forall_mem_cons.mpr ⟨?_, fun v hv => ?_⟩
    returned := fun i text htext hne => ?_
    logged := fun e he => (h.logged e he).trans_le (by simp)
    waits := List.forall_mem_cons.mpr ⟨fun i hi a b hsub => ?_, h.waits⟩ }
  · change (z.texts ++ [c.bytes])[z.texts.length]? =
      some (handedOver z.texts.length z.log ++ c.bytes)
    rw [hnone, List.getElem?_concat_length]
    rfl
  · change (z.texts ++ [c.bytes])[v.id]? = _
    rw [List.getElem?_append_left (hlt v hv)]
    exact h.live v hv
  · have hne' := List.forall_mem_cons.mp hne
    have hold : z.texts[i]? = some text := by
      change (z.texts ++ [c.bytes])[i]? = some text at htext
      have hbound := (List.getElem?_eq_some_iff.mp htext).1
      rw [List.length_append, List.length_singleton] at hbound
      have hi : z.texts.length ≠ i := hne'.1
      rwa [List.getElem?_append_left (by omega)] at htext
    exact h.returned i text hold hne'.2
  · have hmem : (z.texts.length, a) ∈ z.log := hsub.subset List.mem_cons_self
    exact (h.logged _ hmem).ne rfl

/-- The invariant is kept when a call returns. -/
theorem SerialInv.ret (h : SerialInv wire₀ z) {ready : Bool}
    (hstack : z.stack = ⟨id, ready, []⟩ :: below) : SerialInv wire₀ { z with stack := below } := by
  have hdepth := h.depth
  have hroom := h.room
  have hnewer := h.newer
  have hlive := h.live
  have hreturned := h.returned
  have hwaits := h.waits
  rw [hstack] at hdepth hroom hnewer hlive hreturned hwaits
  rw [List.forall_mem_cons] at hlive hwaits
  rw [List.countP_cons] at hroom
  refine { h with
    depth := (Nat.le_succ _).trans hdepth
    room := ?_
    newer := (List.pairwise_cons.mp hnewer).2
    live := hlive.2
    returned := fun i text htext hne => ?_
    waits := hwaits.2 }
  · change z.uart.transmit.length + below.countP (·.ready) ≤ 16
    omega
  · by_cases hi : id = i
    · subst hi
      have hown := hlive.1
      change z.texts[id]? = some (handedOver id z.log ++ []) at hown
      rw [List.append_nil] at hown
      exact Option.some.inj (hown.symm.trans htext)
    · exact hreturned i text htext (List.forall_mem_cons.mpr ⟨hi, hne⟩)

/-- Every step keeps the invariant. -/
theorem SerialInv.step (h : SerialInv wire₀ z) (hstep : SerialStep z z') : SerialInv wire₀ z' := by
  cases hstep with
  | drain hdrain => exact h.drain hdrain
  | poll hstack => exact h.poll hstack
  | out hstack => exact h.out hstack
  | call c hdepth => exact h.call c hdepth
  | ret hstack => exact h.ret hstack

/-! ### The end of the loops -/

/-- From every state the transmitter can run empty. -/
theorem drained (z : SerialLine) : ∃ u wire,
    Relation.ReflTransGen SerialStep z { z with uart := u, wire := wire } ∧ u.inFlight = [] := by
  obtain ⟨u, wire, hrun, hempty⟩ := drains z.uart z.wire
  refine ⟨u, wire, ?_, hempty⟩
  exact hrun.lift (fun v : Uart × List Byte => { z with uart := v.1, wire := v.2 })
    fun v v' hdrain => SerialStep.drain (z := { z with uart := v.1, wire := v.2 }) hdrain

/-- The innermost writer hands its next byte over. -/
theorem writes {ready : Bool} (hstack : z.stack = ⟨id, ready, b :: rest⟩ :: below) : ∃ z',
    Relation.ReflTransGen SerialStep z z' ∧ z'.stack = ⟨id, false, rest⟩ :: below ∧
      z'.texts = z.texts := by
  cases ready with
  | true => exact ⟨_, .single (.out hstack), rfl, rfl⟩
  | false =>
    obtain ⟨u, wire, hrun, hempty⟩ := drained z
    have htransmit : u.transmit = [] := (List.append_eq_nil_iff.mp hempty).2
    have hpoll := SerialStep.poll (z := { z with uart := u, wire := wire }) hstack
    have hready : decide (serialIsTransmitEmpty u ≠ 0) = true :=
      decide_eq_true (status_transmit.mpr htransmit)
    exact ⟨_, (hrun.tail hpoll).tail (.out (by rw [← hready])), rfl, rfl⟩

/-- The innermost writer returns. -/
theorem returns {ready : Bool} (hstack : z.stack = ⟨id, ready, rest⟩ :: below) : ∃ z',
    Relation.ReflTransGen SerialStep z z' ∧ z'.stack = below ∧ z'.texts = z.texts := by
  induction rest generalizing z ready with
  | nil => exact ⟨_, .single (.ret hstack), rfl, rfl⟩
  | cons b rest ih =>
    obtain ⟨z₁, hrun₁, hstack₁, htexts₁⟩ := writes hstack
    obtain ⟨z₂, hrun₂, hstack₂, htexts₂⟩ := ih hstack₁
    exact ⟨z₂, hrun₁.trans hrun₂, hstack₂, htexts₂.trans htexts₁⟩

/-- From every state all open calls can return and their bytes reach the wire. -/
theorem finishes (z : SerialLine) : ∃ z', Relation.ReflTransGen SerialStep z z' ∧ z'.stack = [] ∧
    z'.texts = z.texts ∧ z'.uart.inFlight = [] := by
  induction hstack : z.stack generalizing z with
  | nil =>
    obtain ⟨u, wire, hrun, hempty⟩ := drained z
    exact ⟨_, hrun, hstack, rfl, hempty⟩
  | cons w below ih =>
    obtain ⟨z₁, hrun₁, hstack₁, htexts₁⟩ := returns hstack
    obtain ⟨z₂, hrun₂, hstack₂, htexts₂, hempty⟩ := ih z₁ hstack₁
    exact ⟨z₂, hrun₁.trans hrun₂, hstack₂, htexts₂.trans htexts₁, hempty⟩

/-- `serial_init` has been called, and nothing has been written since. -/
structure SerialLine.Starts (z : SerialLine) : Prop where
  uart : ∃ testMode u, z.uart = outs (serialInit testMode) u
  texts : z.texts = []
  stack : z.stack = []
  log : z.log = []

/-- The invariant holds at the start of a run. -/
theorem SerialLine.Starts.inv (h : z.Starts) : SerialInv (z.wire ++ z.uart.inFlight) z := by
  obtain ⟨testMode, u, huart⟩ := h.uart
  have hempty : z.uart.transmit = [] := by rw [huart, serialInit_uart]
  refine
    { latch := huart ▸ serialInit_latch testMode u, fifos := huart ▸ serialInit_fifos testMode u
      depth := by rw [h.stack]; decide, room := by rw [hempty, h.stack]; decide
      sent := by rw [h.log]; exact (List.append_nil _).symm
      newer := by rw [h.stack]; exact List.Pairwise.nil
      live := by rw [h.stack]; exact fun _ hw => absurd hw List.not_mem_nil
      returned := fun i text htext => ?_
      logged := by rw [h.log]; exact fun _ he => absurd he List.not_mem_nil
      waits := by rw [h.stack]; exact fun _ hw => absurd hw List.not_mem_nil
      unbroken := fun i j a b c _ hsub => ?_ }
  · rw [h.texts] at htext
    cases htext
  · rw [h.log] at hsub
    cases hsub

/-- In every run the bytes on the wire and on the way there are those that were handed over, in that
order; each call has handed over its text as far as it has come; between two bytes of a call there
are none of a call made before it; and all calls can return, with every byte on the wire. -/
theorem serialRun_wire (hstart : z₀.Starts) (hrun : Relation.ReflTransGen SerialStep z₀ z) :
    z.wire ++ z.uart.inFlight = z₀.wire ++ z₀.uart.inFlight ++ z.log.map Prod.snd ∧
      (∀ i text, z.texts[i]? = some text → ∃ rest, text = handedOver i z.log ++ rest ∧
        ((∀ w ∈ z.stack, w.id ≠ i) → rest = [])) ∧
      (∀ i j a b c, i < j → ¬ [(j, a), (i, b), (j, c)].Sublist z.log) ∧
      ∃ z', Relation.ReflTransGen SerialStep z z' ∧ z'.stack = [] ∧ z'.texts = z.texts ∧
        z'.wire = z₀.wire ++ z₀.uart.inFlight ++ z'.log.map Prod.snd := by
  have hinv := run_invariant (SerialInv (z₀.wire ++ z₀.uart.inFlight)) hrun hstart.inv
    fun h hstep => h.step hstep
  refine ⟨hinv.sent, fun i text htext => ?_, hinv.unbroken, ?_⟩
  · by_cases hlive : ∃ w ∈ z.stack, w.id = i
    · obtain ⟨w, hw, rfl⟩ := hlive
      exact ⟨w.rest, Option.some.inj (htext.symm.trans (hinv.live w hw)),
        fun h => absurd rfl (h w hw)⟩
    · have hne : ∀ w ∈ z.stack, w.id ≠ i := fun w hw heq => hlive ⟨w, hw, heq⟩
      refine ⟨[], ?_, fun _ => rfl⟩
      rw [List.append_nil, hinv.returned i text htext hne]
  · obtain ⟨z', hrun', hstack, htexts, hempty⟩ := finishes z
    have hinv' := run_invariant (SerialInv (z₀.wire ++ z₀.uart.inFlight)) hrun' hinv
      fun h hstep => h.step hstep
    have hsent := hinv'.sent
    rw [hempty, List.append_nil] at hsent
    exact ⟨z', hrun', hstack, htexts, hsent⟩

end Runs

/-- An interface that has just been reset. -/
def resetUart : Uart := ⟨1, 0, 0, 0, 0, 0, [], none, [], false⟩

/-- The line after `serial_init`, before the first call. -/
def serialStart : SerialLine := ⟨outs (serialInit false) resetUart, [], [], [], []⟩

/-- The main program has found room for its byte when an interrupt comes, whose handler writes
first. -/
theorem serialRun_wire_interrupted : ∃ z : SerialLine, z.texts = [[byte 'm'], [byte 'h']] ∧
    z.wire ++ z.uart.inFlight = [byte 'h', byte 'm'] := by
  have hmain := (Relation.ReflTransGen.single (SerialStep.call (z := serialStart)
    (.writeChar (byte 'm')) (by decide))).tail (.poll rfl)
  have hhandler := ((hmain.tail (.call (.writeChar (byte 'h')) (by decide))).tail (.poll rfl)).tail
    (.out rfl)
  have hrun := (hhandler.tail (.ret rfl)).tail (.out rfl)
  exact ⟨_, rfl, (serialRun_wire ⟨⟨false, resetUart, rfl⟩, rfl, rfl, rfl⟩ hrun).1⟩

end AuriOS
