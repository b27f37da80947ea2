import AuriOS.Cpu.PicEdges
import AuriOS.Drivers.Serial
import AuriOS.Drivers.SerialLine

/-!
# From the serial line to the shell

In the test build the receiver asks for the processor when fourteen bytes wait, or when fewer have
waited for long, and `serial_callback` reads one of them.  The controllers only see the edge.

* `serialRun_shell`: the shell is called with the bytes that found room, in their order; the
  receiver asks in vain exactly when its edge was forgotten at the start or a call of
  `serial_callback` has found more than fourteen bytes;
* `serialRun_dead`: from then on no byte is read.
-/

namespace AuriOS

open Pic8259 Uart16550 Program

/-- The line of the serial interface. -/
def serialIrq : Irq := .serial

/-- The receiver's line is not the cascade. -/
theorem serialIrq_ne : serialIrq ≠ .master cascadeLine := by decide

/-- The controllers, the receiver, the driver and the shell. -/
structure SerialSystem (W : Type) where
  pic : PicSystem
  uart : Uart
  /-- `serial_callback` has read its byte -/
  hasRead : Bool
  shell : Except Fault (Shell W)
  sent : List Byte
  /-- a byte came when the FIFO was full -/
  overrun : Bool
  consumed : List Byte
  /-- the number of bytes that each call of `serial_callback` has found -/
  found : List ℕ

section Steps

variable {W : Type} (commands : Commands W)

/-- The interface changes, and its line with it. -/
def SerialSystem.become (u : Uart) (k : SerialSystem W) : SerialSystem W :=
  { k with
    uart := u
    pic := if k.pic.pair.isHigh serialIrq = u.int then k.pic else k.pic.device serialIrq u.int }

/-- `serial_callback`: the line status register is read, a byte if there is one, and the shell is
called. -/
def SerialSystem.callback (k : SerialSystem W) : SerialSystem W :=
  let status := k.uart.status
  let (c, u) := if status &&& 1 ≠ 0 then k.uart.read else (0, k.uart)
  { k.become u with
    hasRead := true
    shell := k.shell.bind fun s => keyRun commands s (serialCallback status c).toList
    consumed := k.consumed ++ if status &&& 1 ≠ 0 then [c] else []
    found := k.found ++ [k.uart.received.length] }

/-- One step of the sender, the receiver, the controllers or the driver. -/
inductive SerialInputStep : SerialSystem W → SerialSystem W → Prop
  | receive {k} (b : Byte) : SerialInputStep k
      { k.become (k.uart.receive b) with
        sent := k.sent ++ [b], overrun := k.overrun || decide (16 ≤ k.uart.received.length) }
  | expire {k} : SerialInputStep k (k.become k.uart.expire)
  /-- anything else, except the return of `serial_callback` -/
  | pic {k} {p : PicSystem} (hstep : PicStep k.pic p)
      (hline : p.pair.isHigh serialIrq = k.pic.pair.isHigh serialIrq)
      (hcallback : k.pic.stage = .handler 36 [] → p.stage = .handler 36 []) :
      SerialInputStep k { k with pic := p }
  | callback {k} (hstage : k.pic.stage = .handler 36 []) (hread : k.hasRead = false) :
      SerialInputStep k (k.callback commands)
  /-- the shell has returned to `serial_callback`, and that returns -/
  | iret {k} {s : Shell W} (hstage : k.pic.stage = .handler 36 []) (hread : k.hasRead = true)
      (hshell : k.shell = .ok s) :
      SerialInputStep k { k with pic := { k.pic with stage := .main }, hasRead := false }

end Steps

/-- The kernel has booted to some point behind the initialization of the chips, the driver has read
nothing yet, and the line shows what the receiver asks for. -/
structure SerialSystem.Starts {W : Type} (before after : List (BitVec 8)) (k : SerialSystem W) :
    Prop where
  booted : ∃ s₀, s₀.Boots before after ∧ Relation.ReflTransGen PicStep s₀ k.pic
  ready : k.pic.todo.length + 3 ≤ (picProgram before after).length
  stage : k.pic.stage = .main
  listens : k.uart.Listens
  trigger : k.uart.trigger = 14
  line : k.pic.pair.isHigh serialIrq = k.uart.int
  requested : k.pic.pair.Requested serialIrq → k.uart.int = true
  hasRead : k.hasRead = false
  sent : k.sent = k.uart.received
  overrun : k.overrun = false
  consumed : k.consumed = []
  found : k.found = []

/-- The receiver asks, and its request is nowhere. -/
def SerialSystem.Unheard {W : Type} (k : SerialSystem W) : Prop :=
  k.uart.int = true ∧ ¬ k.pic.pair.Requested serialIrq

/-- What holds in every state of a run, when the edge was forgotten before it or not. -/
structure ReceiveInv {W : Type} (commands : Commands W) (before after : List (BitVec 8))
    (v₀ : PicView) (w : Finset Irq) (forgotten : Prop) (s₀ : Shell W) (k : SerialSystem W) :
    Prop where
  pic : PicInv before after v₀ w k.pic
  ready : k.pic.todo.length + 3 ≤ (picProgram before after).length
  listens : k.uart.Listens
  trigger : k.uart.trigger = 14
  line : k.pic.pair.isHigh serialIrq = k.uart.int
  sub : (k.consumed ++ k.uart.received).Sublist k.sent
  sent : k.overrun = false → k.consumed ++ k.uart.received = k.sent
  requested : k.pic.pair.Requested serialIrq → k.uart.int = true
  serves : k.pic.Serves 36 → k.hasRead = false →
    k.uart.int = true ∧ ¬ k.pic.pair.Requested serialIrq
  heard : ¬ (forgotten ∨ ∃ n ∈ k.found, 14 < n) → k.uart.int = true →
    k.pic.pair.Requested serialIrq ∨ k.pic.Serves 36 ∧ k.hasRead = false
  unheard : forgotten ∨ (∃ n ∈ k.found, 14 < n) →
    k.Unheard ∧ (k.pic.Serves 36 → k.hasRead = true)
  hasRead : k.hasRead = true → k.pic.stage = .handler 36 []
  shell : k.shell = keyRun commands s₀ (k.consumed.map .handleKey)

section Runs

variable {W : Type} {commands : Commands W} {before after : List (BitVec 8)} {v₀ : PicView}
  {w : Finset Irq} {forgotten : Prop} {s₀ : Shell W} {k k' k₀ : SerialSystem W} {u : Uart}

/-- The line is requested when it rises and no longer when it falls. -/
theorem serial_requested {s : PicSystem} {high : Bool} (h : s.pair.isHigh serialIrq ≠ high) :
    (s.device serialIrq high).pair.Requested serialIrq ↔ high = true :=
  Pair.requested_setLine_self serialIrq_ne h

/-- The line follows the interface, and a request comes and goes with it. -/
theorem become_pic (hpic : PicInv before after v₀ w k.pic) (hv₀ : v₀.interruptFlag = false)
    (hline : k.pic.pair.isHigh serialIrq = k.uart.int) (u : Uart) :
    PicInv before after v₀ w (k.become u).pic ∧ (k.become u).pic.todo = k.pic.todo ∧
      (k.become u).pic.stage = k.pic.stage ∧ (k.become u).pic.pair.isHigh serialIrq = u.int ∧
      ((k.become u).pic.pair.Requested serialIrq ↔
        if u.int = k.uart.int then k.pic.pair.Requested serialIrq else u.int = true) := by
  unfold SerialSystem.become
  by_cases h : k.pic.pair.isHigh serialIrq = u.int
  · dsimp only
    rw [if_pos h, if_pos (h.symm.trans hline)]
    exact ⟨hpic, rfl, rfl, h, Iff.rfl⟩
  · dsimp only
    rw [if_neg h, if_neg fun he => h (hline.trans he.symm)]
    exact ⟨hpic.step hv₀ (.device serialIrq u.int serialIrq_ne h), rfl, rfl,
      setLine_isHigh serialIrq_ne, serial_requested h⟩

/-- What is being served depends on the stage alone. -/
theorem serves_congr {s t : PicSystem} (h : t.stage = s.stage) (n : BitVec 8) :
    t.Serves n ↔ s.Serves n := by
  unfold PicSystem.Serves
  rw [h]

/-- The interface changes and takes no request back. -/
theorem ReceiveInv.become (h : ReceiveInv commands before after v₀ w forgotten s₀ k)
    (hv₀ : v₀.interruptFlag = false) (hlistens : u.Listens) (htrigger : u.trigger = 14)
    (hint : k.uart.int = true → u.int = true) {sent : List Byte} {overrun : Bool}
    (hsub : (k.consumed ++ u.received).Sublist sent)
    (hsent : overrun = false → k.consumed ++ u.received = sent) :
    ReceiveInv commands before after v₀ w forgotten s₀
      { k.become u with sent := sent, overrun := overrun } := by
  obtain ⟨hpic, htodo, hstage, hline, hrequested⟩ := become_pic h.pic hv₀ h.line u
  have hserves := serves_congr hstage 36
  have hread : k.hasRead = true → (k.become u).pic.stage = .handler 36 [] := fun hread =>
    hstage.trans (h.hasRead hread)
  by_cases hsame : u.int = k.uart.int
  · rw [if_pos hsame] at hrequested
    exact
      { pic := hpic, ready := (congrArg (List.length · + 3) htodo).trans_le h.ready
        listens := hlistens, trigger := htrigger, line := hline, sub := hsub, sent := hsent
        requested := fun hr => hsame.trans (h.requested (hrequested.mp hr))
        serves := fun hs hunread =>
          have hasks := h.serves (hserves.mp hs) hunread
          ⟨hsame.trans hasks.1, fun hr => hasks.2 (hrequested.mp hr)⟩
        heard := fun hquiet hasks => (h.heard hquiet (hsame.symm.trans hasks)).imp hrequested.mpr
          fun hs => ⟨hserves.mpr hs.1, hs.2⟩
        unheard := fun hsilent =>
          have hold := h.unheard hsilent
          ⟨⟨hsame.trans hold.1.1, fun hr => hold.1.2 (hrequested.mp hr)⟩,
            fun hs => hold.2 (hserves.mp hs)⟩
        hasRead := hread, shell := h.shell }
  · -- the receiver has begun to ask, and the edge is a request
    have hbefore : k.uart.int ≠ true := fun hasked => hsame ((hint hasked).trans hasked.symm)
    have hasks : u.int = true := Bool.eq_true_of_not_eq_false fun hnot =>
      hsame (hnot.trans (Bool.eq_false_of_not_eq_true hbefore).symm)
    rw [if_neg hsame] at hrequested
    exact
      { pic := hpic, ready := (congrArg (List.length · + 3) htodo).trans_le h.ready
        listens := hlistens, trigger := htrigger, line := hline, sub := hsub, sent := hsent
        requested := fun _ => hasks
        serves := fun hs hunread => absurd (h.serves (hserves.mp hs) hunread).1 hbefore
        heard := fun _ _ => Or.inl (hrequested.mpr hasks)
        unheard := fun hsilent => absurd (h.unheard hsilent).1.1 hbefore
        hasRead := hread, shell := h.shell }

/-- The invariant is kept when the callback reads a byte and calls the shell. -/
theorem ReceiveInv.callback (h : ReceiveInv commands before after v₀ w forgotten s₀ k)
    (hv₀ : v₀.interruptFlag = false) (hstage : k.pic.stage = .handler 36 [])
    (hread : k.hasRead = false) :
    ReceiveInv commands before after v₀ w forgotten s₀ (k.callback commands) := by
  have hserves : k.pic.Serves 36 := ⟨[], hstage⟩
  obtain ⟨hint, hgone⟩ := h.serves hserves hread
  have hne := h.listens.nonempty hint
  have hquiet : ¬ (forgotten ∨ ∃ n ∈ k.found, 14 < n) := fun hsilent =>
    Bool.false_ne_true (hread.symm.trans ((h.unheard hsilent).2 hserves))
  obtain ⟨b, rest, hreceived⟩ := List.exists_cons_of_ne_nil hne
  have hstatus : k.uart.status &&& 1 ≠ 0 := status_received.mpr hne
  have hbyte : k.uart.read.1 = b := by
    rw [h.listens.read, hreceived]
    rfl
  have hrest : k.uart.read.2.received = rest := by
    rw [h.listens.read, hreceived]
    rfl
  have hcallback : k.callback commands = { k.become k.uart.read.2 with
      hasRead := true
      shell := k.shell.bind fun s => keyRun commands s [.handleKey b]
      consumed := k.consumed ++ [b]
      found := k.found ++ [k.uart.received.length] } := by
    unfold SerialSystem.callback serialCallback
    simp only [if_pos hstatus, hbyte, Option.toList_some]
  obtain ⟨hpic, htodo, hstage', hline, hrequested⟩ := become_pic h.pic hv₀ h.line k.uart.read.2
  have hasks : k.uart.read.2.int = true ↔ 14 < k.uart.received.length := by
    rw [h.listens.int_read, h.trigger]
  have hgone' : ¬ (k.become k.uart.read.2).pic.pair.Requested serialIrq := by
    rw [hrequested]
    split
    · exact hgone
    · next hchange =>
      rw [hint] at hchange
      exact hchange
  have htrigger : k.uart.read.2.trigger = 14 := by
    rw [h.listens.read]
    exact h.trigger
  rw [hcallback]
  refine
    { pic := hpic, ready := (congrArg (List.length · + 3) htodo).trans_le h.ready
      listens := h.listens.read_listens, trigger := htrigger, line := hline, sub := ?_
      sent := fun hoverrun => ?_, requested := fun hr => absurd hr hgone'
      serves := fun _ hf => absurd hf.symm Bool.false_ne_true
      heard := fun hquiet' hint' => absurd (Or.inr ⟨_, List.mem_append_right _
        (List.mem_singleton_self _), hasks.mp hint'⟩) hquiet'
      unheard := fun hsilent => ⟨⟨hasks.mpr ?_, hgone'⟩, fun _ => rfl⟩
      hasRead := fun _ => hstage'.trans hstage, shell := ?_ }
  · have hsub := h.sub
    rw [hreceived] at hsub
    change (k.consumed ++ [b] ++ k.uart.read.2.received).Sublist k.sent
    rw [hrest, List.append_assoc]
    exact hsub
  · have hsent := h.sent hoverrun
    rw [hreceived] at hsent
    change k.consumed ++ [b] ++ k.uart.read.2.received = k.sent
    rw [hrest, List.append_assoc]
    exact hsent
  · -- no earlier call was the one that found too many
    rcases hsilent with hforgotten | ⟨n, hn, hlt⟩
    · exact absurd (Or.inl hforgotten) hquiet
    · rcases List.mem_append.mp hn with hn | hn
      · exact absurd (Or.inr ⟨n, hn, hlt⟩) hquiet
      · rwa [List.mem_singleton.mp hn] at hlt
  · change (k.shell.bind fun s => keyRun commands s [.handleKey b]) =
      keyRun commands s₀ ((k.consumed ++ [b]).map .handleKey)
    rw [List.map_append, keyRun_append, h.shell]
    rfl

/-- The invariant is kept by the steps that leave the line and the callback alone. -/
theorem ReceiveInv.pic_step (h : ReceiveInv commands before after v₀ w forgotten s₀ k)
    {p : PicSystem} (hv₀ : v₀.interruptFlag = false) (hstep : PicStep k.pic p)
    (hline : p.pair.isHigh serialIrq = k.pic.pair.isHigh serialIrq)
    (hcallback : k.pic.stage = .handler 36 [] → p.stage = .handler 36 []) :
    ReceiveInv commands before after v₀ w forgotten s₀ { k with pic := p } := by
  have hready := (Nat.add_le_add_right (picStep_todo hstep) 3).trans h.ready
  have hread : k.hasRead = true → p.stage = .handler 36 [] := fun hread =>
    hcallback (h.hasRead hread)
  cases lineStep (by decide) (by decide) h.pic hv₀ h.ready hstep hline hcallback with
  | kept hrequested hserves =>
    exact
      { pic := h.pic.step hv₀ hstep, ready := hready, listens := h.listens, trigger := h.trigger
        line := hline.trans h.line, sub := h.sub, sent := h.sent
        requested := fun hr => h.requested (hrequested.mp hr)
        serves := fun hs hunread =>
          have hasks := h.serves (hserves.mp hs) hunread
          ⟨hasks.1, fun hr => hasks.2 (hrequested.mp hr)⟩
        heard := fun hquiet hint => (h.heard hquiet hint).imp hrequested.mpr
          fun hs => ⟨hserves.mpr hs.1, hs.2⟩
        unheard := fun hsilent =>
          have hold := h.unheard hsilent
          ⟨⟨hold.1.1, fun hr => hold.1.2 (hrequested.mp hr)⟩, fun hs => hold.2 (hserves.mp hs)⟩
        hasRead := hread, shell := h.shell }
  | taken hrequested hbefore hgone hserves =>
    have hunread : k.hasRead = false :=
      Bool.eq_false_of_not_eq_true fun hread => hbefore ⟨[], h.hasRead hread⟩
    exact
      { pic := h.pic.step hv₀ hstep, ready := hready, listens := h.listens, trigger := h.trigger
        line := hline.trans h.line, sub := h.sub, sent := h.sent
        requested := fun hr => absurd hr hgone
        serves := fun _ _ => ⟨h.requested hrequested, hgone⟩
        heard := fun _ _ => Or.inr ⟨hserves, hunread⟩
        unheard := fun hsilent => absurd hrequested (h.unheard hsilent).1.2
        hasRead := hread, shell := h.shell }

/-- Every step keeps the invariant. -/
theorem ReceiveInv.step (h : ReceiveInv commands before after v₀ w forgotten s₀ k)
    (hv₀ : v₀.interruptFlag = false) (hstep : SerialInputStep commands k k') :
    ReceiveInv commands before after v₀ w forgotten s₀ k' := by
  cases hstep with
  | receive b =>
    have hreceived := receive_received h.listens.fifos b
    refine h.become hv₀ (h.listens.receive b) h.trigger
      (fun hint => h.listens.int_receive hint b) ?_
      fun hoverrun => ?_
    · rw [hreceived]
      split
      · rw [← List.append_assoc]
        exact h.sub.append_right [b]
      · exact h.sub.trans (List.sublist_append_left _ _)
    · obtain ⟨hbefore, hfull⟩ := Bool.or_eq_false_iff.mp hoverrun
      have hroom : k.uart.received.length < 16 := Nat.lt_of_not_le (of_decide_eq_false hfull)
      rw [hreceived, if_pos hroom, ← List.append_assoc, h.sent hbefore]
  | expire => exact h.become hv₀ h.listens.expire h.trigger h.listens.int_expire h.sub h.sent
  | pic hstep hline hcallback => exact h.pic_step hv₀ hstep hline hcallback
  | callback hstage hread => exact h.callback hv₀ hstage hread
  | iret hstage hread hshell =>
    have hmain : ¬ ({ k.pic with stage := .main } : PicSystem).Serves 36 :=
      not_serves (Or.inl rfl) 36
    exact
      { pic := h.pic.step hv₀ (.iret hstage), ready := h.ready, listens := h.listens
        trigger := h.trigger, line := h.line, sub := h.sub, sent := h.sent
        requested := h.requested
        serves := fun hs => absurd hs hmain
        heard := fun hquiet hint => Or.inl ((h.heard hquiet hint).resolve_right fun hs =>
          Bool.false_ne_true (hs.2.symm.trans hread))
        unheard := fun hsilent => ⟨(h.unheard hsilent).1, fun hs => absurd hs hmain⟩
        hasRead := fun hread => absurd hread Bool.false_ne_true
        shell := h.shell }

/-- The invariant holds at the start of a run. -/
theorem SerialSystem.Starts.inv {p₀ : PicSystem} (h : k₀.Starts before after)
    (hboot : p₀.Boots before after) (hrun : Relation.ReflTransGen PicStep p₀ k₀.pic)
    (hshell : k₀.shell = .ok s₀) :
    ReceiveInv commands before after p₀.view p₀.pair.requests k₀.Unheard s₀ k₀ where
  pic := picRun_inv hboot hrun
  ready := h.ready
  listens := h.listens
  trigger := h.trigger
  line := h.line
  sub := by
    rw [h.consumed, h.sent]
    exact List.Sublist.refl _
  sent := fun _ => by
    rw [h.consumed, h.sent]
    rfl
  requested := h.requested
  serves := fun hs => absurd hs (not_serves (Or.inl h.stage) 36)
  heard := fun hquiet hint => Or.inl (not_not.mp fun hgone => hquiet (Or.inl ⟨hint, hgone⟩))
  unheard := fun hsilent => by
    rw [h.found] at hsilent
    refine ⟨hsilent.resolve_right ?_, fun hs => absurd hs (not_serves (Or.inl h.stage) 36)⟩
    rintro ⟨n, hn, -⟩
    exact absurd hn List.not_mem_nil
  hasRead := fun hread => Bool.noConfusion (h.hasRead.symm.trans hread)
  shell := by
    rw [h.consumed]
    exact hshell

/-- A line of bytes without a NUL. -/
theorem keyRun_bytes (commands : Commands W) {s : Shell W} {d : Desk} (h : s.Shows d)
    (bytes : List Byte) (hzero : 0 ∉ bytes) :
    Completes (fun s' => s'.Shows ((bytes.map KeyCall.handleKey).foldl Desk.act d))
      (keyRun commands s (bytes.map .handleKey)) := by
  induction bytes generalizing s d with
  | nil => exact .of_ok rfl h
  | cons b bytes ih =>
    have hb : 0 ≠ b := List.ne_of_not_mem_cons hzero
    refine (perform_call_completes commands h fun hcall => ?_).bind fun s' hs' =>
      ih hs' (List.not_mem_of_not_mem_cons hzero)
    exact absurd (KeyCall.handleKey.inj hcall).symm hb

/-- In every run the shell is as after the bytes read, one by one; the bytes read and those in the
FIFO are bytes that were sent, in their order, and all of them unless one came to a full FIFO.  The
receiver asks in vain exactly if its edge had been forgotten at the start or a call of
`serial_callback` has found more than fourteen bytes, which leave the line high; otherwise it is
heard. -/
theorem serialRun_shell (hstart : k₀.Starts before after) (hshell : k₀.shell = .ok s₀) {d : Desk}
    (hdesk : s₀.Shows d) (hrun : Relation.ReflTransGen (SerialInputStep commands) k₀ k) :
    (k.consumed ++ k.uart.received).Sublist k.sent ∧
      (k.overrun = false → k.consumed ++ k.uart.received = k.sent) ∧
      k.shell = keyRun commands s₀ (k.consumed.map .handleKey) ∧
      (0 ∉ k.consumed → Completes
        (fun s => s.Shows ((k.consumed.map KeyCall.handleKey).foldl Desk.act d)) k.shell) ∧
      (k.pic.stage = .main → (k.Unheard ↔ k₀.Unheard ∨ ∃ n ∈ k.found, 14 < n)) ∧
      (k.uart.int = true → k.pic.stage = .main → k.pic.interruptFlag = true →
        k.pic.pair.Enabled serialIrq → k.Unheard ∨ k.pic.pair.master.int = true) := by
  obtain ⟨p₀, hboot, hbooted⟩ := hstart.booted
  have hinv : ReceiveInv commands before after p₀.view p₀.pair.requests k₀.Unheard s₀ k :=
    run_invariant (ReceiveInv commands before after p₀.view p₀.pair.requests k₀.Unheard s₀) hrun
      (hstart.inv hboot hbooted hshell) fun h hstep => h.step hboot.flag hstep
  refine ⟨hinv.sub, hinv.sent, hinv.shell, fun hzero => ?_, fun hstage => ⟨fun hunheard => ?_,
    fun hsilent => (hinv.unheard hsilent).1⟩, fun hint hstage hflag henabled => ?_⟩
  · rw [hinv.shell]
    exact keyRun_bytes commands hdesk _ hzero
  · by_contra hquiet
    rcases hinv.heard hquiet hunheard.1 with hrequested | hserves
    · exact hunheard.2 hrequested
    · exact not_serves (Or.inl hstage) 36 hserves.1
  · by_cases hrequested : k.pic.pair.Requested serialIrq
    · have hisr := hinv.pic.inService.stage
      rw [hstage] at hisr
      have hlinked := hinv.pic.linked hinv.ready (by rw [hstage]; exact Stage.noConfusion)
      exact Or.inr ((Pair.int_iff_enabled hlinked hisr.1 hisr.2).mpr
        ⟨serialIrq, serialIrq_ne, hrequested, henabled⟩)
    · exact Or.inl ⟨hint, hrequested⟩

/-- Nobody reads, and nobody will. -/
structure Silent (commands : Commands W) (before after : List (BitVec 8)) (v₀ : PicView)
    (w : Finset Irq) (forgotten : Prop) (s₀ : Shell W) (k₀ k : SerialSystem W) : Prop where
  inv : ReceiveInv commands before after v₀ w forgotten s₀ k
  silent : forgotten ∨ ∃ n ∈ k₀.found, 14 < n
  found : k.found = k₀.found
  consumed : k.consumed = k₀.consumed

/-- A silent receiver stays silent. -/
theorem Silent.step (h : Silent commands before after v₀ w forgotten s₀ k₀ k)
    (hv₀ : v₀.interruptFlag = false) (hstep : SerialInputStep commands k k') :
    Silent commands before after v₀ w forgotten s₀ k₀ k' := by
  refine ⟨h.inv.step hv₀ hstep, h.silent, ?_, ?_⟩ <;> cases hstep with
  | callback hstage hread =>
    have hdone := (h.inv.unheard (h.found ▸ h.silent)).2 ⟨[], hstage⟩
    exact absurd (hread.symm.trans hdone) Bool.false_ne_true
  | _ => first | exact h.found | exact h.consumed

/-- From then on no byte is read, whatever else is sent. -/
theorem serialRun_dead (hstart : k₀.Starts before after) (hshell : k₀.shell = .ok s₀)
    (hrun : Relation.ReflTransGen (SerialInputStep commands) k₀ k)
    (hsilent : k₀.Unheard ∨ ∃ n ∈ k.found, 14 < n)
    (hmore : Relation.ReflTransGen (SerialInputStep commands) k k') :
    k'.consumed = k.consumed ∧ k'.shell = k.shell ∧ k'.Unheard := by
  obtain ⟨p₀, hboot, hbooted⟩ := hstart.booted
  have hinv : ReceiveInv commands before after p₀.view p₀.pair.requests k₀.Unheard s₀ k :=
    run_invariant (ReceiveInv commands before after p₀.view p₀.pair.requests k₀.Unheard s₀) hrun
      (hstart.inv hboot hbooted hshell) fun h hstep => h.step hboot.flag hstep
  have hend : Silent commands before after p₀.view p₀.pair.requests k₀.Unheard s₀ k k' :=
    run_invariant (Silent commands before after p₀.view p₀.pair.requests k₀.Unheard s₀ k) hmore
      ⟨hinv, hsilent, rfl, rfl⟩ fun h hstep => h.step hboot.flag hstep
  refine ⟨hend.consumed, ?_, (hend.inv.unheard (hend.found ▸ hsilent)).1⟩
  rw [hend.inv.shell, hend.consumed, hinv.shell]

end Runs

/-! ### Fifteen bytes -/

/-- The test build, whose kernel unmasks the serial line too. -/
def testBoot : PicSystem :=
  { pair := ⟨resetChip, resetChip⟩, stage := .main, todo := picProgram [0, 4] [1], value := 0,
    interruptFlag := false, log := [] }

/-- The boot of the test build unmasks the serial line too, in front of `sti`. -/
theorem testBoot_boots : testBoot.Boots [0, 4] [1] := ⟨rfl, rfl, rfl, ⟨rfl, rfl⟩, rfl⟩

/-- The kernel has booted, and the receiver has begun to ask. -/
def testAsked : PicSystem := (testBoot.accesses (picProgram [0, 4] [1])).device serialIrq true

/-- By then nothing of the boot program is left. -/
theorem testAsked_ready : testAsked.todo.length + 3 ≤ (picProgram [0, 4] [1]).length := by decide

/-- The state in which the receiver asks is reached by a run. -/
theorem testAsked_run : Relation.ReflTransGen PicStep testBoot testAsked :=
  (main_run [] rfl (List.append_nil _).symm).tail
    (.device serialIrq true serialIrq_ne (by decide))

/-- Then this many bytes have come in. -/
def flooded (n : ℕ) : SerialSystem Unit :=
  { pic := testAsked
    uart := { outs (serialInit true) resetUart with received := List.replicate n (byte 'a') }
    hasRead := false
    shell := .ok (Shell.boot (Console.initial (fun _ => 0) ⟨0, fun _ => 0⟩) ())
    sent := List.replicate n (byte 'a'), overrun := false, consumed := [], found := [] }

/-- A receiver with fourteen to sixteen bytes waiting is a start. -/
theorem flooded_starts {n : ℕ} (hn : 14 ≤ n) (hsize : n ≤ 16) : (flooded n).Starts [0, 4] [1] := by
  have hlistens := serialInit_listens resetUart
  have hlength : (flooded n).uart.received.length = n := List.length_replicate
  have hsame : (flooded n).uart.trigger = (outs (serialInit true) resetUart).trigger :=
    trigger_congr rfl
  have htrigger := hsame.trans (serialInit_trigger true resetUart)
  have huart : (flooded n).uart.Listens :=
    ⟨hlistens.latch, hlistens.fifos, hlistens.connected, hlistens.enabled, hlength.trans_le hsize,
      fun h => Bool.noConfusion h⟩
  have hint : (flooded n).uart.int = true :=
    huart.int_eq.mpr (Or.inr (by rw [hlength, htrigger]; exact hn))
  refine
    { booted := ⟨testBoot, testBoot_boots, testAsked_run⟩, ready := testAsked_ready, stage := rfl
      listens := huart, trigger := htrigger, line := ?_, requested := fun _ => hint, hasRead := rfl
      sent := rfl, overrun := rfl, consumed := rfl, found := rfl }
  rw [hint]
  exact setLine_isHigh serialIrq_ne

/-- Fourteen bytes wait, the receiver is heard, and the first is read. -/
theorem serialRun_shell_fourteen : ∃ k : SerialSystem Unit,
    k.consumed = [byte 'a'] ∧ k.consumed ++ k.uart.received = k.sent ∧
    k.shell = keyRun (fun _ _ w => some ([], w))
      (Shell.boot (Console.initial (fun _ => 0) ⟨0, fun _ => 0⟩) ()) [.handleKey (byte 'a')] ∧
    Completes (fun s => s.Shows (Desk.initial.act (.handleKey (byte 'a')))) k.shell := by
  have hsample : SerialInputStep (fun _ _ w => some ([], w)) (flooded 14) _ :=
    .pic (.sample rfl rfl (by decide)) rfl fun h => absurd h (by decide)
  have hvector := (Relation.ReflTransGen.single hsample).tail
    (.pic (.pulse1 rfl) rfl fun h => absurd h (by decide))
  have hrun := (hvector.tail (.pic (.endOfInterrupt rfl) rfl fun _ => rfl)).tail (.callback rfl rfl)
  obtain ⟨-, hsent, hshell, hshows, -⟩ := serialRun_shell (d := .initial)
    (flooded_starts le_rfl (by decide)) rfl (boot_prompting (Console.initial_valid _ _) ()) hrun
  generalize hk : (SerialSystem.callback _ _ : SerialSystem Unit) = k at hsent hshell hshows
  have hconsumed : k.consumed = [byte 'a'] := by
    rw [← hk]
    rfl
  have hoverrun : k.overrun = false := by
    rw [← hk]
    rfl
  rw [hconsumed] at hshell hshows
  exact ⟨k, hconsumed, hsent hoverrun, hshell, hshows (by decide)⟩

/-- Fifteen bytes wait, the first is read, and no other after it. -/
theorem serialRun_dead_fifteen : ∃ k : SerialSystem Unit, k.consumed = [byte 'a'] ∧
    k.uart.received.length = 14 ∧
    ∀ k', Relation.ReflTransGen (SerialInputStep fun _ _ w => some ([], w)) k k' →
      k'.consumed = [byte 'a'] := by
  have hsample : SerialInputStep (fun _ _ w => some ([], w)) (flooded 15) _ :=
    .pic (.sample rfl rfl (by decide)) rfl fun h => absurd h (by decide)
  have hvector := (Relation.ReflTransGen.single hsample).tail
    (.pic (.pulse1 rfl) rfl fun h => absurd h (by decide))
  have hrun := (hvector.tail (.pic (.endOfInterrupt rfl) rfl fun _ => rfl)).tail (.callback rfl rfl)
  exact ⟨_, rfl, rfl, fun k' hmore =>
    (serialRun_dead (flooded_starts (by decide) (by decide)) rfl hrun
    (Or.inr ⟨15, List.mem_singleton_self _, by decide⟩) hmore).1⟩

end AuriOS
