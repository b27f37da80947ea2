import AuriOS.Cpu.PicEdges
import AuriOS.Kernel.Session

/-!
# From the keyboard to the shell

The keyboard sends bytes; the controller at port `0x60` holds one of them at a time, with its line
high, and `keyboard_callback` reads it.  Bytes, other devices, the main program and interrupts come
in any order.

* `keyboardRun_shell`: the shell is called as if the bytes came one by one to `keyboardCallback`;
  none is lost, doubled or overtaken, and a byte that waits asks for the processor;
* `keyboardRun_dead`: a byte whose edge was forgotten by the initialization of the master stops the
  keyboard for good.
-/

namespace AuriOS

open Pic8259 Program

/-- The keyboard's line. -/
def keyboardLine : Irq := .keyboard

/-- The keyboard's line is not the cascade. -/
theorem keyboardLine_ne : keyboardLine ≠ .master cascadeLine := by decide

/-- The scancodes in turn: the flags they leave and the calls they make. -/
def scancodeCalls (kb : Keyboard) : List Byte → Keyboard × List KeyCall
  | [] => (kb, [])
  | scancode :: rest =>
      let (kb', call) := keyboardCallback kb scancode
      ((scancodeCalls kb' rest).1, call.toList ++ (scancodeCalls kb' rest).2)

/-- The controllers, the keyboard with its one byte of output, the driver and the shell. -/
structure KeyboardSystem (W : Type) where
  pic : PicSystem
  /-- in the keyboard, not yet at the port -/
  queue : List Byte
  full : Bool
  data : Byte
  /-- `keyboard_callback` has read the port -/
  hasRead : Bool
  keyboard : Keyboard
  shell : Except Fault (Shell W)
  sent : List Byte
  consumed : List Byte

section Steps

variable {W : Type} (commands : Commands W)

/-- `keyboard_callback`: the byte at the port is read, the line falls, and the shell is called. -/
def KeyboardSystem.callback (k : KeyboardSystem W) : KeyboardSystem W :=
  let (kb, call) := keyboardCallback k.keyboard k.data
  { k with
    pic := if k.full then k.pic.device keyboardLine false else k.pic
    full := false
    hasRead := true
    keyboard := kb
    shell := k.shell.bind fun s => keyRun commands s call.toList
    consumed := k.consumed ++ [k.data] }

/-- One step of the keys, the controllers or the driver. -/
inductive KeyboardStep : KeyboardSystem W → KeyboardSystem W → Prop
  /-- a byte leaves a key -/
  | key {k} (b : Byte) : KeyboardStep k { k with queue := k.queue ++ [b], sent := k.sent ++ [b] }
  /-- the next byte is put at the port -/
  | deliver {k} {b : Byte} {rest : List Byte} (hfull : k.full = false)
      (hqueue : k.queue = b :: rest) :
      KeyboardStep k
        { k with pic := k.pic.device keyboardLine true, queue := rest, full := true, data := b }
  /-- anything else, except the return of `keyboard_callback` -/
  | pic {k} {p : PicSystem} (hstep : PicStep k.pic p)
      (hline : p.pair.isHigh keyboardLine = k.pic.pair.isHigh keyboardLine)
      (hcallback : k.pic.stage = .handler 33 [] → p.stage = .handler 33 []) :
      KeyboardStep k { k with pic := p }
  | callback {k} (hstage : k.pic.stage = .handler 33 []) (hread : k.hasRead = false) :
      KeyboardStep k (k.callback commands)
  /-- the shell has returned to `keyboard_callback`, and that returns -/
  | iret {k} {s : Shell W} (hstage : k.pic.stage = .handler 33 []) (hread : k.hasRead = true)
      (hshell : k.shell = .ok s) :
      KeyboardStep k { k with pic := { k.pic with stage := .main }, hasRead := false }

end Steps

/-! ### Runs -/

/-- The bytes between the keys and the driver. -/
def KeyboardSystem.waitingBytes {W : Type} (k : KeyboardSystem W) : List Byte :=
  (if k.full then [k.data] else []) ++ k.queue

/-- The kernel has booted to some point behind the initialization of the chips, the driver has read
nothing yet, and the line is high while a byte is at the port. -/
structure KeyboardSystem.Starts {W : Type} (before after : List (BitVec 8)) (k : KeyboardSystem W) :
    Prop where
  booted : ∃ s₀, s₀.Boots before after ∧ Relation.ReflTransGen PicStep s₀ k.pic
  ready : k.pic.todo.length + 3 ≤ (picProgram before after).length
  stage : k.pic.stage = .main
  line : k.pic.pair.isHigh keyboardLine = k.full
  requested : k.pic.pair.Requested keyboardLine → k.full = true
  hasRead : k.hasRead = false
  consumed : k.consumed = []
  sent : k.sent = k.waitingBytes

/-- What holds in every state of a run. -/
structure KeyboardInv {W : Type} (commands : Commands W) (before after : List (BitVec 8))
    (v₀ : PicView) (w : Finset Irq) (kb₀ : Keyboard) (s₀ : Shell W) (k : KeyboardSystem W) :
    Prop where
  pic : PicInv before after v₀ w k.pic
  ready : k.pic.todo.length + 3 ≤ (picProgram before after).length
  line : k.pic.pair.isHigh keyboardLine = k.full
  sent : k.sent = k.consumed ++ k.waitingBytes
  waits : k.full = true →
    k.pic.pair.Requested keyboardLine ∨ k.pic.Serves 33 ∧ k.hasRead = false
  serves : k.pic.Serves 33 → k.hasRead = false → k.full = true
  requested : k.pic.pair.Requested keyboardLine → k.full = true
  hasRead : k.hasRead = true → k.pic.stage = .handler 33 []
  keyboard : k.keyboard = (scancodeCalls kb₀ k.consumed).1
  shell : k.shell = keyRun commands s₀ (scancodeCalls kb₀ k.consumed).2

section Runs

variable {W : Type} {commands : Commands W} {before after : List (BitVec 8)} {v₀ : PicView}
  {w : Finset Irq} {kb₀ : Keyboard} {s₀ : Shell W} {k k' k₀ : KeyboardSystem W}

/-- One more scan code adds the call that its callback makes. -/
theorem scancodeCalls_concat (kb : Keyboard) (scancodes : List Byte) (b : Byte) :
    scancodeCalls kb (scancodes ++ [b]) =
      ((keyboardCallback (scancodeCalls kb scancodes).1 b).1,
        (scancodeCalls kb scancodes).2 ++
          (keyboardCallback (scancodeCalls kb scancodes).1 b).2.toList) := by
  induction scancodes generalizing kb with
  | nil => simp [scancodeCalls]
  | cons a scancodes ih =>
    unfold scancodeCalls
    dsimp only [List.cons_append]
    rw [ih, List.append_assoc]

/-- The line is requested when it rises and no longer when it falls. -/
theorem device_requested {s : PicSystem} {high : Bool} (h : s.pair.isHigh keyboardLine ≠ high) :
    (s.device keyboardLine high).pair.Requested keyboardLine ↔ high = true :=
  Pair.requested_setLine_self keyboardLine_ne h

/-- The invariant is kept when the controller takes a byte from the keys. -/
theorem KeyboardInv.deliver (h : KeyboardInv commands before after v₀ w kb₀ s₀ k) {b : Byte}
    {rest : List Byte} (hv₀ : v₀.interruptFlag = false) (hfull : k.full = false)
    (hqueue : k.queue = b :: rest) :
    KeyboardInv commands before after v₀ w kb₀ s₀
      { k with pic := k.pic.device keyboardLine true, queue := rest, full := true, data := b } := by
  have hlow : k.pic.pair.isHigh keyboardLine ≠ true := by
    rw [h.line, hfull]
    decide
  have hstep := PicStep.device (s := k.pic) keyboardLine true keyboardLine_ne hlow
  refine ⟨h.pic.step hv₀ hstep, h.ready, setLine_isHigh keyboardLine_ne, ?_, fun _ => Or.inl ?_,
    fun _ _ => rfl, fun _ => rfl, h.hasRead, h.keyboard, h.shell⟩
  · rw [h.sent]
    unfold KeyboardSystem.waitingBytes
    rw [hfull, hqueue]
    rfl
  · exact (device_requested hlow).mpr rfl

/-- The invariant is kept when the callback reads a byte and calls the shell. -/
theorem KeyboardInv.callback (h : KeyboardInv commands before after v₀ w kb₀ s₀ k)
    (hv₀ : v₀.interruptFlag = false) (hstage : k.pic.stage = .handler 33 [])
    (hread : k.hasRead = false) :
    KeyboardInv commands before after v₀ w kb₀ s₀ (k.callback commands) := by
  have hfull := h.serves ⟨[], hstage⟩ hread
  have hhigh : k.pic.pair.isHigh keyboardLine ≠ false := by
    rw [h.line, hfull]
    decide
  have hstep := PicStep.device (s := k.pic) keyboardLine false keyboardLine_ne hhigh
  have hpic : (k.callback commands).pic = k.pic.device keyboardLine false := by
    unfold KeyboardSystem.callback
    dsimp only
    rw [if_pos hfull]
  have hconcat := scancodeCalls_concat kb₀ k.consumed k.data
  refine ⟨?_, ?_, ?_, ?_, fun hf => absurd hf Bool.false_ne_true, fun _ hf =>
    absurd hf.symm Bool.false_ne_true, fun hrequested => ?_, fun _ => ?_, ?_, ?_⟩
  · rw [hpic]
    exact h.pic.step hv₀ hstep
  · rw [hpic]
    exact h.ready
  · rw [hpic]
    exact setLine_isHigh keyboardLine_ne
  · change k.sent = k.consumed ++ [k.data] ++ ([] ++ k.queue)
    rw [h.sent]
    unfold KeyboardSystem.waitingBytes
    rw [hfull, List.append_assoc]
    rfl
  · rw [hpic] at hrequested
    exact absurd ((device_requested hhigh).mp hrequested) Bool.false_ne_true
  · rw [hpic]
    exact hstage
  · change (keyboardCallback k.keyboard k.data).1 = (scancodeCalls kb₀ (k.consumed ++ [k.data])).1
    rw [hconcat, h.keyboard]
  · change (k.shell.bind fun s => keyRun commands s (keyboardCallback k.keyboard k.data).2.toList) =
      keyRun commands s₀ (scancodeCalls kb₀ (k.consumed ++ [k.data])).2
    rw [hconcat, keyRun_append, h.shell, h.keyboard]

/-- The invariant is kept by the steps that leave the line and the callback alone. -/
theorem KeyboardInv.pic_step (h : KeyboardInv commands before after v₀ w kb₀ s₀ k) {p : PicSystem}
    (hv₀ : v₀.interruptFlag = false) (hstep : PicStep k.pic p)
    (hline : p.pair.isHigh keyboardLine = k.pic.pair.isHigh keyboardLine)
    (hcallback : k.pic.stage = .handler 33 [] → p.stage = .handler 33 []) :
    KeyboardInv commands before after v₀ w kb₀ s₀ { k with pic := p } := by
  have hready := (Nat.add_le_add_right (picStep_todo hstep) 3).trans h.ready
  have hread : k.hasRead = true → p.stage = .handler 33 [] := fun hread =>
    hcallback (h.hasRead hread)
  cases lineStep (by decide) (by decide) h.pic hv₀ h.ready hstep hline hcallback with
  | kept hrequested hserves =>
    refine ⟨h.pic.step hv₀ hstep, hready, hline.trans h.line, h.sent, fun hfull => ?_, ?_, ?_,
      hread, h.keyboard, h.shell⟩
    · exact (h.waits hfull).imp hrequested.mpr fun hs => ⟨hserves.mpr hs.1, hs.2⟩
    · exact fun hs hread => h.serves (hserves.mp hs) hread
    · exact fun hr => h.requested (hrequested.mp hr)
  | taken hrequested hbefore hgone hserves =>
    have hunread : k.hasRead = false :=
      Bool.eq_false_of_not_eq_true fun hread => hbefore ⟨[], h.hasRead hread⟩
    exact ⟨h.pic.step hv₀ hstep, hready, hline.trans h.line, h.sent,
      fun _ => Or.inr ⟨hserves, hunread⟩, fun _ _ => h.requested hrequested,
      fun hr => absurd hr hgone, hread, h.keyboard, h.shell⟩

/-- Every step keeps the invariant. -/
theorem KeyboardInv.step (h : KeyboardInv commands before after v₀ w kb₀ s₀ k)
    (hv₀ : v₀.interruptFlag = false) (hstep : KeyboardStep commands k k') :
    KeyboardInv commands before after v₀ w kb₀ s₀ k' := by
  cases hstep with
  | key b =>
    refine ⟨h.pic, h.ready, h.line, ?_, h.waits, h.serves, h.requested, h.hasRead, h.keyboard,
      h.shell⟩
    change k.sent ++ [b] = k.consumed ++ ((if k.full then [k.data] else []) ++ (k.queue ++ [b]))
    rw [h.sent]
    unfold KeyboardSystem.waitingBytes
    simp only [List.append_assoc]
  | deliver hfull hqueue => exact h.deliver hv₀ hfull hqueue
  | pic hstep hline hcallback => exact h.pic_step hv₀ hstep hline hcallback
  | callback hstage hread => exact h.callback hv₀ hstage hread
  | iret hstage hread hshell =>
    have hwaits : k.full = true → k.pic.pair.Requested keyboardLine := fun hfull =>
      (h.waits hfull).resolve_right fun hs => Bool.false_ne_true (hs.2.symm.trans hread)
    have hmain : ¬ ({ k.pic with stage := .main } : PicSystem).Serves 33 :=
      not_serves (Or.inl rfl) 33
    exact ⟨h.pic.step hv₀ (.iret hstage), h.ready, h.line, h.sent, fun hfull =>
      Or.inl (hwaits hfull), fun hs => absurd hs hmain, h.requested,
      fun hread => absurd hread Bool.false_ne_true, h.keyboard, h.shell⟩

/-- The driver makes only known calls. -/
theorem scancodeCalls_known (kb : Keyboard) (scancodes : List Byte) :
    ∀ call ∈ (scancodeCalls kb scancodes).2, call.Known := by
  induction scancodes generalizing kb with
  | nil => exact fun call hcall => absurd hcall List.not_mem_nil
  | cons b scancodes ih =>
    intro call hcall
    rcases List.mem_append.mp hcall with hcall | hcall
    · exact delivered_known ⟨kb, b, Option.mem_toList.mp hcall⟩
    · exact ih _ call hcall

/-- The invariant holds at the start of a run. -/
theorem KeyboardSystem.Starts.inv {p₀ : PicSystem} (h : k₀.Starts before after)
    (hboot : p₀.Boots before after) (hrun : Relation.ReflTransGen PicStep p₀ k₀.pic)
    (hedge : k₀.full = true → k₀.pic.pair.Requested keyboardLine) (hshell : k₀.shell = .ok s₀) :
    KeyboardInv commands before after p₀.view p₀.pair.requests k₀.keyboard s₀ k₀ where
  pic := picRun_inv hboot hrun
  ready := h.ready
  line := h.line
  sent := by
    rw [h.consumed]
    exact h.sent
  waits := fun hfull => Or.inl (hedge hfull)
  serves := fun hs => absurd hs (not_serves (Or.inl h.stage) 33)
  requested := h.requested
  hasRead := fun hread => Bool.noConfusion (h.hasRead.symm.trans hread)
  keyboard := by
    rw [h.consumed]
    rfl
  shell := by
    rw [h.consumed]
    exact hshell

/-- Unless an edge was forgotten before, in every state of every run the bytes that were sent are
the bytes read by the driver, in their order, and then those that wait; the shell is as after the
calls that `keyboardCallback` makes of the bytes read; and a byte that waits at the port asks for
the processor. -/
theorem keyboardRun_shell (hstart : k₀.Starts before after)
    (hedge : k₀.full = true → k₀.pic.pair.Requested keyboardLine) (hshell : k₀.shell = .ok s₀)
    {d : Desk} (hdesk : s₀.Shows d)
    (hrun : Relation.ReflTransGen (KeyboardStep commands) k₀ k) :
    k.sent = k.consumed ++ k.waitingBytes ∧
      k.shell = keyRun commands s₀ (scancodeCalls k₀.keyboard k.consumed).2 ∧
      Completes (fun s => s.Shows ((scancodeCalls k₀.keyboard k.consumed).2.foldl Desk.act d))
        k.shell ∧
      (k.full = true → k.pic.stage = .main → k.pic.interruptFlag = true →
        k.pic.pair.Enabled keyboardLine → k.pic.pair.master.int = true) := by
  obtain ⟨p₀, hboot, hbooted⟩ := hstart.booted
  have hinv : KeyboardInv commands before after p₀.view p₀.pair.requests k₀.keyboard s₀ k :=
    run_invariant (KeyboardInv commands before after p₀.view p₀.pair.requests k₀.keyboard s₀) hrun
      (hstart.inv hboot hbooted hedge hshell) fun h hstep => h.step hboot.flag hstep
  refine ⟨hinv.sent, hinv.shell, ?_, fun hfull hstage hflag henabled => ?_⟩
  · rw [hinv.shell]
    exact keyRun_ok commands hdesk _ (scancodeCalls_known _ _)
  · have hisr := hinv.pic.inService.stage
    rw [hstage] at hisr
    have hlinked := hinv.pic.linked hinv.ready (by rw [hstage]; exact Stage.noConfusion)
    refine (Pair.int_iff_enabled hlinked hisr.1 hisr.2).mpr ⟨keyboardLine, keyboardLine_ne, ?_,
      henabled⟩
    exact (hinv.waits hfull).resolve_right fun hs => not_serves (Or.inl hstage) 33 hs.1

/-- What holds while the line is stuck. -/
structure Stuck (before after : List (BitVec 8)) (v₀ : PicView) (w : Finset Irq)
    (k : KeyboardSystem W) : Prop where
  pic : PicInv before after v₀ w k.pic
  ready : k.pic.todo.length + 3 ≤ (picProgram before after).length
  full : k.full = true
  requested : ¬ k.pic.pair.Requested keyboardLine
  serves : ¬ k.pic.Serves 33
  consumed : k.consumed = []

/-- A stuck line stays stuck. -/
theorem Stuck.step (h : Stuck before after v₀ w k) (hv₀ : v₀.interruptFlag = false)
    (hstep : KeyboardStep commands k k') : Stuck before after v₀ w k' := by
  cases hstep with
  | key b => exact ⟨h.pic, h.ready, h.full, h.requested, h.serves, h.consumed⟩
  | deliver hfull hqueue => exact Bool.noConfusion (h.full.symm.trans hfull)
  | pic hstep hline hcallback =>
    have hready := (Nat.add_le_add_right (picStep_todo hstep) 3).trans h.ready
    cases lineStep (by decide) (by decide) h.pic hv₀ h.ready hstep hline hcallback with
    | kept hrequested hserves =>
      exact ⟨h.pic.step hv₀ hstep, hready, h.full, fun hr => h.requested (hrequested.mp hr),
        fun hs => h.serves (hserves.mp hs), h.consumed⟩
    | taken hrequested hbefore hgone hserves => exact absurd hrequested h.requested
  | callback hstage hread => exact absurd ⟨[], hstage⟩ h.serves
  | iret hstage hread hshell => exact absurd ⟨[], hstage⟩ h.serves

/-- A byte at the port whose edge was forgotten is never read, and no byte after it: the line does
not fall, and there is no other edge. -/
theorem keyboardRun_dead (hstart : k₀.Starts before after) (hfull : k₀.full = true)
    (hedge : ¬ k₀.pic.pair.Requested keyboardLine)
    (hrun : Relation.ReflTransGen (KeyboardStep commands) k₀ k) :
    k.consumed = [] ∧ k.full = true ∧ ¬ k.pic.pair.Requested keyboardLine := by
  obtain ⟨p₀, hboot, hbooted⟩ := hstart.booted
  have hstuck : Stuck before after p₀.view p₀.pair.requests k :=
    run_invariant (Stuck before after p₀.view p₀.pair.requests) hrun
      ⟨picRun_inv hboot hbooted, hstart.ready, hfull, hedge, not_serves (Or.inl hstart.stage) 33,
        hstart.consumed⟩ fun h hstep => h.step hboot.flag hstep
  exact ⟨hstuck.consumed, hstuck.full, hstuck.requested⟩

end Runs

/-! ### Two boots -/

/-- The kernel has booted from these chips, and the shell shows its first prompt. -/
def booted (p : PicSystem) (full : Bool) (data : Byte) : KeyboardSystem Unit :=
  { pic := p.accesses (picProgram [0] [1]), queue := [], full := full, data := data,
    hasRead := false
    keyboard := Keyboard.initial
    shell := .ok (Shell.boot (Console.initial (fun _ => 0) ⟨0, fun _ => 0⟩) ())
    sent := if full then [data] else [], consumed := [] }

/-- The kernel's own boot is a start. -/
theorem booted_kernelBoot : (booted kernelBoot false 0).Starts [0] [1] :=
  ⟨⟨kernelBoot, kernelBoot_boots, main_run [] rfl (List.append_nil _).symm⟩, by decide, rfl,
    by decide, fun h => absurd h (by decide), rfl, rfl, rfl⟩

/-- A key is pressed, and its byte arrives at the port. -/
def aPressed : KeyboardSystem Unit :=
  { booted kernelBoot false 0 with
    pic := (booted kernelBoot false 0).pic.device keyboardLine true
    full := true, data := 0x1E, sent := [0x1E] }

/-- The driver reads the byte, and the shell takes the letter. -/
theorem keyboardRun_shell_a : ∃ k : KeyboardSystem Unit, k.consumed = [0x1E] ∧
    k.shell = keyRun (fun _ _ w => some ([], w))
      (Shell.boot (Console.initial (fun _ => 0) ⟨0, fun _ => 0⟩) ()) [.handleKey (byte 'a')] ∧
    Completes (fun s => s.Shows (Desk.initial.act (.handleKey (byte 'a')))) k.shell := by
  have hpressed : Relation.ReflTransGen (KeyboardStep fun _ _ w => some ([], w))
      (booted kernelBoot false 0) aPressed :=
    (Relation.ReflTransGen.single (.key 0x1E)).tail (.deliver rfl rfl)
  have hsample : KeyboardStep (fun _ _ w => some ([], w)) aPressed _ :=
    .pic (.sample rfl rfl (by decide)) rfl fun h => absurd h (by decide)
  have hvector := (hpressed.tail hsample).tail
    (.pic (.pulse1 rfl) rfl fun h => absurd h (by decide))
  have hrun := (hvector.tail (.pic (.endOfInterrupt rfl) rfl fun _ => rfl)).tail (.callback rfl rfl)
  have hcalls : (scancodeCalls (booted kernelBoot false 0).keyboard [0x1E]).2 =
      [.handleKey (byte 'a')] := by decide
  obtain ⟨-, hshell, hshows, -⟩ := keyboardRun_shell (d := .initial) booted_kernelBoot
    (fun h => Bool.noConfusion h) rfl (boot_prompting (Console.initial_valid _ _) ()) hrun
  generalize hk : (KeyboardSystem.callback _ _ : KeyboardSystem Unit) = k at hshell hshows
  have hconsumed : k.consumed = [0x1E] := by
    rw [← hk]
    rfl
  rw [hconsumed, hcalls] at hshell hshows
  exact ⟨k, hconsumed, hshell, hshows⟩

/-- A key was pressed before the chips were initialized. -/
def pressedEarly : PicSystem :=
  { kernelBoot with pair := kernelBoot.pair.setLine keyboardLine true }

/-- A boot with a key pressed too early is a start. -/
theorem booted_pressedEarly : (booted pressedEarly true 0x1E).Starts [0] [1] :=
  ⟨⟨pressedEarly, ⟨rfl, rfl, rfl, ⟨rfl, rfl⟩, rfl⟩, main_run [] rfl (List.append_nil _).symm⟩,
    by decide, rfl, by decide, fun _ => rfl, rfl, rfl, rfl⟩

/-- After a boot with a key pressed too early a further key is not read. -/
theorem keyboardRun_dead_pressedEarly :
    ({ booted pressedEarly true 0x1E with queue := [0x9E], sent := [0x1E, 0x9E] } :
      KeyboardSystem Unit).consumed = [] := by
  have hrun : Relation.ReflTransGen (KeyboardStep fun _ _ w => some ([], w))
      (booted pressedEarly true 0x1E) _ := .single (.key 0x9E)
  exact (keyboardRun_dead booted_pressedEarly rfl (by decide) hrun).1

end AuriOS
