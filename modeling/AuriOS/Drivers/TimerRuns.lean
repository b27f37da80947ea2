import AuriOS.Cpu.PicEdges
import AuriOS.Drivers.Timer

/-!
# The timer at work

The timer's edges go through the controllers to `timer_callback`, with other devices, the main
program and their interrupts in any order; `sleep` is the main program's loop of checks and `hlt`.

* `timerRun_ticks`: the counter is the number of edges, less those lost and those on their way;
* `sleepRun_returns`: `sleep` does not return before its ticks have been counted, and every one of
  them is an edge of its own after the call, but for a request that waited when it was called.
-/

namespace AuriOS

open Pic8259 Program WrappingCounter

/-! ### The counter -/

/-- The timer's line. -/
def timerLine : Irq := .timer

/-- The controllers and the timer's counter. -/
structure TimerSystem where
  pic : PicSystem
  timer : Timer
  /-- `timer_callback` has run in this interrupt -/
  ticked : Bool

/-- One step of the controllers or of `timer_callback`. -/
inductive TimerStep : TimerSystem → TimerSystem → Prop
  /-- anything but `timer_callback` and its return -/
  | pic {t} {p : PicSystem} (hstep : PicStep t.pic p)
      (hcallback : t.pic.stage = .handler 32 [] → p.stage = .handler 32 []) :
      TimerStep t { t with pic := p }
  | callback {t} (hstage : t.pic.stage = .handler 32 []) (hticked : t.ticked = false) :
      TimerStep t { t with timer := timerCallback t.timer, ticked := true }
  | iret {t} (hstage : t.pic.stage = .handler 32 []) (hticked : t.ticked = true) :
      TimerStep t { t with pic := { t.pic with stage := .main }, ticked := false }

/-- A tick on its way from the controller to the counter. -/
def TimerSystem.Underway (t : TimerSystem) : Prop := t.pic.Serves 32 ∧ t.ticked = false

instance (t : TimerSystem) : Decidable t.Underway := inferInstanceAs (Decidable (_ ∧ _))

/-- What the counter will be when that tick has arrived. -/
def TimerSystem.reached (t : TimerSystem) : BitVec 32 :=
  t.timer.tick + if t.Underway then 1 else 0

/-- What holds in every state of a run. -/
structure TimerInv (before after : List (BitVec 8)) (v₀ : PicView) (w : Finset Irq)
    (tick₀ : BitVec 32) (t : TimerSystem) : Prop where
  pic : PicInv before after v₀ w t.pic
  ticked : t.ticked = true → t.pic.stage = .handler 32 []
  tick : t.reached = tick₀ + BitVec.ofNat 32 (services timerLine t.pic.log)

section Counter

variable {before after : List (BitVec 8)} {v₀ : PicView} {w : Finset Irq} {tick₀ : BitVec 32}
  {t t' t₀ : TimerSystem}

/-- With no tick under way the counter has what it will have. -/
theorem reached_of_not (h : ¬ t.Underway) : t.reached = t.timer.tick := by
  unfold TimerSystem.reached
  rw [if_neg h]
  exact BitVec.add_zero _

/-- A tick under way will count one more. -/
theorem reached_of_underway (h : t.Underway) : t.reached = t.timer.tick + 1 := by
  unfold TimerSystem.reached
  rw [if_pos h]

/-- No other interrupt has the timer's vector. -/
theorem serve_timer {intNo : BitVec 8} {line : Option Irq}
    (h : (PicEvent.serve intNo line).Justified w) :
    services timerLine [.serve intNo line] = if intNo = 32 then 1 else 0 := by
  have hvector : ∀ l, lineVector l = 32 → l = timerLine := by
    rintro (l | l)
    · revert l
      decide
    · revert l
      decide
  unfold services
  rw [List.count_singleton]
  cases line with
  | none =>
    have hne : ¬ intNo = 32#8 := by
      rcases h with rfl | rfl <;> decide
    simp [hne]
  | some l =>
    obtain ⟨-, rfl⟩ := h
    by_cases hl : l = timerLine
    · subst hl
      rfl
    · have hne : ¬ lineVector l = 32#8 := mt (hvector l) hl
      simp [hl, hne]

/-- The invariant is kept by the steps that leave the callback alone. -/
theorem TimerInv.pic_step (h : TimerInv before after v₀ w tick₀ t) (hv₀ : v₀.interruptFlag = false)
    {p : PicSystem} (hstep : PicStep t.pic p)
    (hcallback : t.pic.stage = .handler 32 [] → p.stage = .handler 32 []) :
    TimerInv before after v₀ w tick₀ { t with pic := p } := by
  have hpic := h.pic.step hv₀ hstep
  refine ⟨hpic, fun hticked => hcallback (h.ticked hticked), ?_⟩
  have htick := h.tick
  have hjustified := hpic.accounted.justified
  cases stageStep hstep with
  | enters intNo line hbefore hstage hlog =>
    have hunticked : t.ticked = false := Bool.eq_false_of_not_eq_true fun hticked =>
      hbefore 32 ⟨[], h.ticked hticked⟩
    rw [reached_of_not fun hu => hbefore 32 hu.1] at htick
    rw [hlog] at hjustified
    rw [hlog, services_append, serve_timer hjustified.drop.head.1, BitVec.ofNat_add,
      ← BitVec.add_assoc, ← htick]
    by_cases htimer : intNo = 32
    · have hunderway : ({ t with pic := p } : TimerSystem).Underway :=
        ⟨(serves_iff hstage).mpr htimer, hunticked⟩
      rw [if_pos htimer, reached_of_underway hunderway]
      rfl
    · rw [if_neg htimer, reached_of_not fun hu => htimer ((serves_iff hstage).mp hu.1)]
      exact (BitVec.add_zero _).symm
  | leaves intNo hbefore hstage hlog =>
    have htimer : intNo ≠ 32 := by
      rintro rfl
      exact absurd ((hcallback hbefore).symm.trans hstage) (by simp)
    rw [reached_of_not fun hu => htimer ((serves_iff hbefore).mp hu.1)] at htick
    rw [reached_of_not fun hu => not_serves (Or.inl hstage) 32 hu.1, hlog]
    exact htick
  | stays hserves events hlog hevents =>
    have hnone : services timerLine events = 0 := List.count_eq_zero.mpr (hevents _ _)
    have hsame : ({ t with pic := p } : TimerSystem).reached = t.reached := by
      by_cases hu : t.Underway
      · rw [reached_of_underway hu]
        exact reached_of_underway ⟨(hserves 32).mpr hu.1, hu.2⟩
      · rw [reached_of_not hu]
        exact reached_of_not fun hp => hu ⟨(hserves 32).mp hp.1, hp.2⟩
    rw [hsame, htick, hlog, services_append, hnone]
    rfl

/-- Every step keeps the invariant. -/
theorem TimerInv.step (h : TimerInv before after v₀ w tick₀ t) (hv₀ : v₀.interruptFlag = false)
    (hstep : TimerStep t t') : TimerInv before after v₀ w tick₀ t' := by
  cases hstep with
  | pic hstep hcallback => exact h.pic_step hv₀ hstep hcallback
  | callback hstage hticked =>
    have htick := h.tick
    rw [reached_of_underway ⟨⟨[], hstage⟩, hticked⟩] at htick
    refine ⟨h.pic, fun _ => hstage, ?_⟩
    rw [reached_of_not fun hu => Bool.false_ne_true hu.2.symm]
    exact htick
  | iret hstage hticked =>
    have htick := h.tick
    rw [reached_of_not fun hu => Bool.false_ne_true (hu.2.symm.trans hticked)] at htick
    refine ⟨h.pic.step hv₀ (.iret hstage), fun hf => absurd hf Bool.false_ne_true, ?_⟩
    rw [reached_of_not fun hu => not_serves (Or.inl rfl) 32 hu.1]
    exact htick

/-- The invariant holds in every state of a run. -/
theorem timerRun_inv (hboot : t₀.pic.Boots before after) (hticked : t₀.ticked = false)
    (hrun : Relation.ReflTransGen TimerStep t₀ t) :
    TimerInv before after t₀.pic.view t₀.pic.pair.requests t₀.timer.tick t := by
  refine run_invariant (TimerInv before after t₀.pic.view t₀.pic.pair.requests t₀.timer.tick) hrun
    ⟨hboot.inv, fun hf => Bool.noConfusion (hticked.symm.trans hf), ?_⟩
    fun h hstep => h.step hboot.flag hstep
  rw [reached_of_not fun hu => not_serves (Or.inl hboot.stage) 32 hu.1, hboot.log]
  exact (BitVec.add_zero _).symm

/-- What the counter and the log say in every state of a run from the boot on. -/
theorem timerRun_ticks (hboot : t₀.pic.Boots before after) (hticked : t₀.ticked = false)
    (hrun : Relation.ReflTransGen TimerStep t₀ t) :
    t.reached = t₀.timer.tick + BitVec.ofNat 32 (services timerLine t.pic.log) ∧
      (t.pic.stage = .main → t.timer.tick = t.reached) ∧
      edges timerLine t.pic.log + (if t₀.pic.pair.Requested timerLine then 1 else 0) =
        services timerLine t.pic.log + lost timerLine t₀.pic.pair.requests t.pic.log +
          if t.pic.pair.Requested timerLine then 1 else 0 := by
  have hinv := timerRun_inv hboot hticked hrun
  refine ⟨hinv.tick, fun hstage =>
    (reached_of_not fun hu => not_serves (Or.inl hstage) 32 hu.1).symm,
    hinv.pic.edges (by decide)⟩

end Counter

/-! ### `sleep` in the machine -/

/-- Where the main program is in `sleep`. -/
inductive SleepStage
  /-- in front of the comparison -/
  | check
  /-- in front of `hlt` -/
  | halt
  | halted
  | returned
  deriving DecidableEq

/-- The end of an interrupt is the end of a `hlt`. -/
def SleepStage.wake : SleepStage → SleepStage
  | .halted => .check
  | stage => stage

/-- The timer's machine with a call of `sleep` in it. -/
structure SleepSystem where
  machine : TimerSystem
  start : BitVec 32
  ticksToWait : BitVec 32
  stage : SleepStage
  /-- the ticks that came before each check and after the one before it -/
  arrivals : List ℕ
  /-- the ticks that came before the last check -/
  seen : ℕ

/-- The call. -/
def TimerSystem.sleep (t : TimerSystem) (ms : BitVec 32) : SleepSystem where
  machine := t
  start := t.timer.tick
  ticksToWait := (t.timer.frequency * ms) / 1000
  stage := .check
  arrivals := []
  seen := services timerLine t.pic.log

/-- The comparison. -/
def SleepSystem.check (z : SleepSystem) : SleepSystem :=
  { z with
    stage := if z.machine.timer.tick - z.start < z.ticksToWait then .halt else .returned
    arrivals := z.arrivals ++ [services timerLine z.machine.pic.log - z.seen]
    seen := services timerLine z.machine.pic.log }

/-- One step of the machine or of `sleep`. -/
inductive SleepStep : SleepSystem → SleepSystem → Prop
  /-- anything but the main program -/
  | machine {z} {t : TimerSystem} (hstep : TimerStep z.machine t)
      (htodo : t.pic.todo = z.machine.pic.todo) :
      SleepStep z { z with
        machine := t
        stage :=
          if z.machine.pic.stage ≠ .main ∧ t.pic.stage = .main then z.stage.wake else z.stage }
  | check {z} (hmain : z.machine.pic.stage = .main) (hstage : z.stage = .check) :
      SleepStep z z.check
  | halt {z} (hmain : z.machine.pic.stage = .main) (hstage : z.stage = .halt) :
      SleepStep z { z with stage := .halted }

/-- What holds in every state after the call. -/
structure SleepInv (before after : List (BitVec 8)) (v₀ : PicView) (w : Finset Irq)
    (tick₀ : BitVec 32) (t : TimerSystem) (ms : BitVec 32) (z : SleepSystem) : Prop where
  machine : TimerInv before after v₀ w tick₀ z.machine
  log : t.pic.log <+: z.machine.pic.log
  start : z.start = t.timer.tick
  ticksToWait : z.ticksToWait = (t.timer.frequency * ms) / 1000
  seen : z.seen = services timerLine t.pic.log + z.arrivals.sum
  seen_le : z.seen ≤ services timerLine z.machine.pic.log
  /-- the checks that came too early -/
  waited : ∀ i < z.arrivals.length, (z.stage = .returned → i + 1 < z.arrivals.length) →
    (z.arrivals.take (i + 1)).sum % 2 ^ 32 < z.ticksToWait.toNat
  returned : z.stage = .returned →
    z.arrivals ≠ [] ∧ z.ticksToWait.toNat ≤ z.arrivals.sum % 2 ^ 32

section Sleep

variable {before after : List (BitVec 8)} {v₀ : PicView} {w : Finset Irq} {tick₀ ms : BitVec 32}
  {t t' t₀ : TimerSystem} {z z' : SleepSystem}

/-- A step only adds to the log. -/
theorem picStep_log {s s' : PicSystem} (hstep : PicStep s s') : s.log <+: s'.log := by
  cases stageStep hstep with
  | enters intNo line hbefore hstage hlog => exact ⟨_, hlog.symm⟩
  | leaves intNo hbefore hstage hlog => rw [hlog]
  | stays hserves events hlog hevents => exact ⟨_, hlog.symm⟩

/-- A step of the timer only adds to the log. -/
theorem timerStep_log (hstep : TimerStep t t') : t.pic.log <+: t'.pic.log := by
  cases hstep with
  | pic hstep hcallback => exact picStep_log hstep
  | callback hstage hticked => exact List.prefix_rfl
  | iret hstage hticked => exact List.prefix_rfl

/-- A longer log has at least the services of a shorter one. -/
theorem services_mono {l : Irq} {log log' : List PicEvent} (h : log <+: log') :
    services l log ≤ services l log' := by
  obtain ⟨events, rfl⟩ := h
  rw [services_append]
  exact Nat.le_add_right _ _

/-- In the main program the counter has every tick. -/
theorem TimerInv.tick_main (h : TimerInv before after v₀ w tick₀ t) (hstage : t.pic.stage = .main) :
    t.timer.tick = tick₀ + BitVec.ofNat 32 (services timerLine t.pic.log) := by
  rw [← h.tick]
  exact (reached_of_not fun hu => not_serves (Or.inl hstage) 32 hu.1).symm

/-- The ticks since the call, read from the counter. -/
theorem tick_sub_toNat (ht : TimerInv before after v₀ w tick₀ t) (htstage : t.pic.stage = .main)
    (ht' : TimerInv before after v₀ w tick₀ t') (htstage' : t'.pic.stage = .main) {k : ℕ}
    (hk : services timerLine t'.pic.log = services timerLine t.pic.log + k) :
    (t'.timer.tick - t.timer.tick).toNat = k % 2 ^ 32 := by
  refine tick_sub_start ?_
  rw [ht'.tick_main htstage', ht.tick_main htstage, hk, BitVec.ofNat_add, BitVec.add_assoc]

/-- Waking up is not returning. -/
theorem wake_returned {stage : SleepStage} {p : Prop} [Decidable p] :
    (if p then stage.wake else stage) = .returned ↔ stage = .returned := by
  split
  · cases stage <;> simp [SleepStage.wake]
  · exact Iff.rfl

/-- The invariant is kept by a check of the counter. -/
theorem SleepInv.check (h : SleepInv before after v₀ w tick₀ t ms z)
    (ht : TimerInv before after v₀ w tick₀ t) (htstage : t.pic.stage = .main)
    (hmain : z.machine.pic.stage = .main) (hstage : z.stage = .check) :
    SleepInv before after v₀ w tick₀ t ms z.check := by
  have hseen := h.seen
  have hle := h.seen_le
  have hsum : z.check.arrivals.sum =
      z.arrivals.sum + (services timerLine z.machine.pic.log - z.seen) := by
    unfold SleepSystem.check
    rw [List.sum_append, List.sum_singleton]
  have hlength : z.check.arrivals.length = z.arrivals.length + 1 := List.length_append
  have hread : (z.machine.timer.tick - z.start).toNat = z.check.arrivals.sum % 2 ^ 32 := by
    rw [h.start]
    refine tick_sub_toNat ht htstage h.machine hmain ?_
    omega
  have hearlier : ∀ i < z.arrivals.length,
      (z.check.arrivals.take (i + 1)).sum % 2 ^ 32 < z.ticksToWait.toNat := by
    intro i hi
    have htake : z.check.arrivals.take (i + 1) = z.arrivals.take (i + 1) :=
      List.take_append_of_le_length (Nat.succ_le_of_lt hi)
    rw [htake]
    exact h.waited i hi fun hr => absurd (hstage.symm.trans hr) (by decide)
  have hlast : z.check.arrivals.take (z.arrivals.length + 1) = z.check.arrivals :=
    List.take_of_length_le hlength.le
  refine ⟨h.machine, h.log, h.start, h.ticksToWait, ?_, le_rfl, fun i hi hnot => ?_, fun hr => ?_⟩
  · rw [hsum]
    change services timerLine z.machine.pic.log = _
    omega
  · rcases Nat.lt_succ_iff_lt_or_eq.mp (hlength ▸ hi) with hi | rfl
    · exact hearlier i hi
    · -- the last check sent the processor to `hlt`
      rw [hlast, ← hread]
      by_contra hge
      have hreturned : z.check.stage = .returned := if_neg hge
      have := hnot hreturned
      omega
  · refine ⟨List.append_ne_nil_of_right_ne_nil _ (List.cons_ne_nil _ _), ?_⟩
    rw [← hread]
    by_contra hlt
    have hhalt : z.check.stage = .halt := if_pos (Nat.lt_of_not_le hlt)
    exact absurd (hhalt.symm.trans hr) (by decide)

/-- Every step keeps the invariant. -/
theorem SleepInv.step (h : SleepInv before after v₀ w tick₀ t ms z)
    (ht : TimerInv before after v₀ w tick₀ t) (htstage : t.pic.stage = .main)
    (hv₀ : v₀.interruptFlag = false) (hstep : SleepStep z z') :
    SleepInv before after v₀ w tick₀ t ms z' := by
  cases hstep with
  | machine hstep htodo =>
    have hlog := timerStep_log hstep
    refine ⟨h.machine.step hv₀ hstep, h.log.trans hlog, h.start, h.ticksToWait, h.seen,
      h.seen_le.trans (services_mono hlog), fun i hi hnot => ?_, fun hr => ?_⟩
    · exact h.waited i hi fun hr => hnot (wake_returned.mpr hr)
    · exact h.returned (wake_returned.mp hr)
  | check hmain hstage => exact h.check ht htstage hmain hstage
  | halt hmain hstage =>
    refine ⟨h.machine, h.log, h.start, h.ticksToWait, h.seen, h.seen_le, fun i hi _ => ?_,
      fun hr => absurd hr (by simp)⟩
    exact h.waited i hi fun hr => absurd (hstage.symm.trans hr) (by decide)

/-- What has elapsed at a check is the sum of the arrivals so far. -/
theorem elapsed_getD (arrivals : List ℕ) (n : ℕ) :
    elapsed (fun n => arrivals.getD n 0) n = (arrivals.take (n + 1)).sum := by
  induction n with
  | zero =>
    rw [elapsed_zero]
    cases arrivals <;> simp
  | succ n ih =>
    rw [elapsed_succ, ih, List.take_add_one (i := n + 1), List.sum_append]
    cases h : arrivals[n + 1]? <;> simp [List.getD_eq_getElem?_getD, h]

/-- `sleep` in the machine returns where `sleep` on the ticks that it sees returns.  They are ticks
of their own: at least as many edges as it waits for came after the call, but for a request that
waited then. -/
theorem sleepRun_returns (hboot : t₀.pic.Boots before after) (hticked : t₀.ticked = false)
    (hbefore : Relation.ReflTransGen TimerStep t₀ t) (hstage : t.pic.stage = .main)
    (hrun : Relation.ReflTransGen SleepStep (t.sleep ms) z) (hreturned : z.stage = .returned) :
    ReturnsAt (fun n => z.arrivals.getD n 0) ms t.timer (z.arrivals.length - 1) ∧
      ∃ log, z.machine.pic.log = t.pic.log ++ log ∧ z.arrivals.sum ≤ services timerLine log ∧
        ((t.timer.frequency * ms) / 1000).toNat ≤
          edges timerLine log + if t.pic.pair.Requested timerLine then 1 else 0 := by
  have ht := timerRun_inv hboot hticked hbefore
  have hinv : SleepInv before after t₀.pic.view t₀.pic.pair.requests t₀.timer.tick t ms z := by
    refine run_invariant _ hrun ⟨ht, List.prefix_rfl, rfl, rfl, rfl, le_rfl,
      fun i hi _ => absurd hi (Nat.not_lt_zero i), fun hr => SleepStage.noConfusion hr⟩
      fun h hstep => h.step ht hstage hboot.flag hstep
  obtain ⟨hne, hreached⟩ := hinv.returned hreturned
  have hlength : z.arrivals.length - 1 + 1 = z.arrivals.length :=
    Nat.succ_pred_eq_of_pos (List.length_pos_iff.mpr hne)
  have hwait := hinv.ticksToWait
  constructor
  · rw [sleep_returnsAt_iff, isLeast_iff]
    simp only [Nat.not_le, elapsed_getD]
    rw [hlength, List.take_length, ← hwait]
    exact ⟨hreached, fun k hk => hinv.waited k (by omega) fun _ => by omega⟩
  · obtain ⟨log, hlog⟩ := hinv.log
    have hjustified := hinv.machine.pic.accounted.justified
    rw [← hlog] at hjustified
    have hlaw := edges_eq timerLine hjustified.drop
    have hrequests := ht.pic.accounted.requests timerLine (by decide)
    have hseen := hinv.seen
    have hle := hinv.seen_le
    have hmod := Nat.mod_le z.arrivals.sum (2 ^ 32)
    rw [← hlog, services_append] at hle
    unfold waits at hlaw
    simp only [hrequests] at hlaw
    exact ⟨log, hlog.symm, by omega, by rw [← hwait]; omega⟩

end Sleep

/-! ### One tick -/

section Tick

variable {t t' : TimerSystem} {z : SleepSystem}

/-- The main program by itself. -/
theorem timerMain_run {ops : List PicOp} (rest : List PicOp) (hstage : t.pic.stage = .main)
    (htodo : t.pic.todo = ops ++ rest) :
    Relation.ReflTransGen TimerStep t { t with pic := t.pic.accesses ops } := by
  refine (accesses_run rest hstage htodo).lift (fun p => { t with pic := p }) fun s _ h => ?_
  exact .pic h.1 fun hhandler => absurd (h.2.symm.trans hhandler) (by simp)

/-- A step of the machine while `sleep` is in front of its comparison. -/
theorem sleep_machine (hstage : z.stage = .check) (hstep : TimerStep z.machine t)
    (htodo : t.pic.todo = z.machine.pic.todo) : SleepStep z { z with machine := t } := by
  have hwake : (if z.machine.pic.stage ≠ .main ∧ t.pic.stage = .main then z.stage.wake
      else z.stage) = z.stage := by
    rw [hstage]
    split <;> rfl
  have hmachine := SleepStep.machine hstep htodo
  rwa [hwake] at hmachine

/-- The kernel after its boot, with 1000 ticks a second. -/
def kernelTimer : TimerSystem :=
  { pic := kernelBoot.accesses (picProgram [0] [1]), timer := ⟨0, 1000⟩, ticked := false }

/-- It in the handler of the timer, after an edge. -/
def inTimerHandler : PicSystem :=
  let s := { kernelTimer.pic.device timerLine true with stage := .acknowledging }.pulse1
  { s with pair := picOutb 0x20 0x20 s.pair, stage := .handler 32 [] }

/-- The booted kernel after its first tick. -/
def kernelTicked : TimerSystem :=
  { pic := { inTimerHandler with stage := .main }, timer := ⟨1, 1000⟩, ticked := false }

/-- The booted timer is reached by a run. -/
theorem kernelTimer_run :
    Relation.ReflTransGen TimerStep ⟨kernelBoot, ⟨0, 1000⟩, false⟩ kernelTimer :=
  timerMain_run [] rfl (List.append_nil _).symm

/-- The steps of one tick, none of them the main program's. -/
theorem kernelTicked_run : Relation.ReflTransGen
    (fun t t' => TimerStep t t' ∧ t'.pic.todo = t.pic.todo) kernelTimer kernelTicked := by
  refine .head ⟨.pic (.device timerLine true (by decide) (by decide)) fun h => ?_, rfl⟩ ?_
  · exact absurd h (by decide)
  refine .head ⟨.pic (.sample rfl rfl (by decide)) fun h => ?_, rfl⟩ ?_
  · exact absurd h (by decide)
  refine .head ⟨.pic (.pulse1 rfl) fun h => ?_, rfl⟩ ?_
  · exact absurd h (by decide)
  refine .head ⟨.pic (.endOfInterrupt rfl) fun _ => rfl, rfl⟩ ?_
  exact .head ⟨.callback rfl rfl, rfl⟩ (.single ⟨.iret rfl rfl, rfl⟩)

/-- One tick served is one tick counted. -/
theorem timerRun_ticks_one : kernelTicked.reached =
    0 + BitVec.ofNat 32 (services timerLine kernelTicked.pic.log) :=
  (timerRun_ticks kernelBoot_boots rfl
    (kernelTimer_run.trans (kernelTicked_run.lift id fun _ _ h => h.1))).1

/-- A wait for one millisecond ends after the tick. -/
theorem sleepRun_returns_one : ReturnsAt (fun n => [1].getD n 0) 1 ⟨0, 1000⟩ 0 := by
  have hmachine : Relation.ReflTransGen SleepStep (kernelTimer.sleep 1)
      { kernelTimer.sleep 1 with machine := kernelTicked } :=
    kernelTicked_run.lift (fun t => { kernelTimer.sleep 1 with machine := t })
      fun _ _ h => sleep_machine rfl h.1 h.2
  exact (sleepRun_returns kernelBoot_boots rfl kernelTimer_run rfl
    (hmachine.tail (.check rfl rfl)) rfl).1

end Tick

end AuriOS
