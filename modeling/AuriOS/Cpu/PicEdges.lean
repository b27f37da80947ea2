import AuriOS.Cpu.PicRuns

/-!
# Edges and handlers

What a line's edges come to, from the log of a run, and how the processor enters and leaves the
handler of a line.

* `PicInv.edges`: in every run, every edge of a line is served once, lost, or waits;
* `StageStep`: what a step does to the handler;
* `LineStep`: what a step of the others does for one line of the master.
-/

namespace AuriOS

open Pic8259 Program

/-! ### The edges of a line -/

/-- An event that takes a waiting request away unserved, or an edge that adds nothing to it. -/
def PicEvent.loses (l : Irq) (w : Finset Irq) : PicEvent → Bool
  | .rise k | .fall k => k = l ∧ l ∈ w
  | .serve _ _ => false
  | .initializeMaster => l ∈ w ∧ l.isSlave = false
  | .initializeSlave => l ∈ w ∧ l.isSlave = true

/-- The rising edges of a line. -/
def edges (l : Irq) (log : List PicEvent) : ℕ := log.count (.rise l)

/-- The interrupts that took a request of a line. -/
def services (l : Irq) (log : List PicEvent) : ℕ := log.count (.serve (lineVector l) (some l))

/-- The requests of a line that are lost, when the lines in `w` wait before. -/
def lost (l : Irq) : Finset Irq → List PicEvent → ℕ
  | _, [] => 0
  | w, e :: log => (if e.loses l w then 1 else 0) + lost l (e.apply w) log

/-- One, if the line waits. -/
def waits (l : Irq) (w : Finset Irq) : ℕ := if l ∈ w then 1 else 0

section Edges

variable {l : Irq} {w : Finset Irq} {log log' : List PicEvent} {e : PicEvent}

/-- The edges of two logs add up. -/
theorem edges_append (l : Irq) (log log' : List PicEvent) :
    edges l (log ++ log') = edges l log + edges l log' := List.count_append

/-- The services of two logs add up. -/
theorem services_append (l : Irq) (log log' : List PicEvent) :
    services l (log ++ log') = services l log + services l log' := List.count_append

/-- What waits after two logs, the second taking up what the first left. -/
theorem waiting_append (w : Finset Irq) (log log' : List PicEvent) :
    waiting w (log ++ log') = waiting (waiting w log) log' := List.foldl_append

/-- What follows a log is justified by the lines that wait behind it. -/
theorem Justified.drop (h : Justified w (log ++ log')) : Justified (waiting w log) log' := by
  intro earlier event hprefix
  rw [← waiting_append]
  refine h (log ++ earlier) event ?_
  rw [List.append_assoc]
  exact (List.prefix_append_right_inj log).mpr hprefix

/-- The first event of a justified log is justified, and so is what follows it. -/
theorem Justified.head (h : Justified w (e :: log)) : e.Justified w ∧ Justified (e.apply w) log :=
  ⟨h [] e ⟨log, rfl⟩, Justified.drop (show Justified w ([e] ++ log) from h)⟩

/-- The edges of one event. -/
theorem edges_event (h : e.Justified w) : edges l [e] + waits l w =
    services l [e] + (if e.loses l w then 1 else 0) + waits l (e.apply w) := by
  unfold edges services waits
  cases e with
  | rise k =>
    by_cases hk : k = l
    · subst hk
      simp [PicEvent.loses, PicEvent.apply]
      split <;> simp
    · have hlk : l ≠ k := Ne.symm hk
      simp [PicEvent.loses, PicEvent.apply, hk, hlk]
  | fall k =>
    by_cases hk : k = l
    · subst hk
      simp [PicEvent.loses, PicEvent.apply]
    · have hlk : l ≠ k := Ne.symm hk
      simp [PicEvent.loses, PicEvent.apply, hk, hlk]
  | serve intNo line =>
    cases line with
    | none =>
      have hsame : (PicEvent.serve intNo none).apply w = w := rfl
      simp [PicEvent.loses, hsame]
    | some k =>
      obtain ⟨hmem, rfl⟩ := h
      by_cases hk : k = l
      · subst hk
        simp [PicEvent.loses, PicEvent.apply, hmem]
      · have hlk : l ≠ k := Ne.symm hk
        simp [PicEvent.loses, PicEvent.apply, hk, hlk]
  | initializeMaster =>
    cases hslave : l.isSlave <;> simp [PicEvent.loses, PicEvent.apply, hslave]
  | initializeSlave =>
    cases hslave : l.isSlave <;> simp [PicEvent.loses, PicEvent.apply, hslave]

/-- Every edge of a line, and the request that waited before, is served, lost or waits. -/
theorem edges_eq (l : Irq) (h : Justified w log) :
    edges l log + waits l w = services l log + lost l w log + waits l (waiting w log) := by
  induction log generalizing w with
  | nil => rfl
  | cons e log ih =>
    obtain ⟨he, hrest⟩ := h.head
    have hone := edges_event (l := l) he
    have hmore := ih hrest
    have hedges := edges_append l [e] log
    have hservices := services_append l [e] log
    rw [List.singleton_append] at hedges hservices
    rw [hedges, hservices, lost]
    change _ = _ + _ + waits l (waiting (e.apply w) log)
    omega

/-- What the edges of a device's line have come to. -/
theorem PicInv.edges {before after : List (BitVec 8)} {v₀ : PicView} {p : Pair} {s : PicSystem}
    (h : PicInv before after v₀ p.requests s) (hl : l ≠ .master cascadeLine) :
    edges l s.log + (if p.Requested l then 1 else 0) =
      services l s.log + lost l p.requests s.log + if s.pair.Requested l then 1 else 0 := by
  have hlaw := edges_eq l h.accounted.justified
  unfold waits at hlaw
  simp only [h.accounted.requests l hl, Pair.mem_requests] at hlaw
  exact hlaw

end Edges

/-! ### The handlers -/

/-- The processor is in the handler for this vector, or in `irq_handler` in front of it. -/
def PicSystem.Serves (s : PicSystem) (intNo : BitVec 8) : Prop :=
  ∃ writes, s.stage = .handler intNo writes

/-- What a step does to the processor: it enters a handler, it leaves one, or it does neither. -/
inductive StageStep (s t : PicSystem) : Prop
  | enters (intNo : BitVec 8) (line : Option Irq) (hbefore : ∀ n, ¬ s.Serves n)
      (hstage : t.stage = .handler intNo (irqHandler intNo))
      (hlog : t.log = s.log ++ [.serve intNo line])
  | leaves (intNo : BitVec 8) (hbefore : s.stage = .handler intNo []) (hstage : t.stage = .main)
      (hlog : t.log = s.log)
  | stays (hserves : ∀ n, t.Serves n ↔ s.Serves n) (events : List PicEvent)
      (hlog : t.log = s.log ++ events) (hevents : ∀ n line, .serve n line ∉ events)

section Stages

variable {s t : PicSystem}

/-- Outside a handler no interrupt is being served. -/
theorem not_serves (h : s.stage = .main ∨ s.stage = .acknowledging ∨ s.stage = .cascaded)
    (n : BitVec 8) : ¬ s.Serves n := by
  rintro ⟨writes, hwrites⟩
  rw [hwrites] at h
  simp at h

/-- Inside a handler exactly its own interrupt is being served. -/
theorem serves_iff {intNo n : BitVec 8} {writes : List (BitVec 16 × BitVec 8)}
    (h : s.stage = .handler intNo writes) : s.Serves n ↔ intNo = n := by
  constructor
  · rintro ⟨writes', hwrites'⟩
    exact (Stage.handler.inj (h.symm.trans hwrites')).1
  · rintro rfl
    exact ⟨writes, h⟩

instance (s : PicSystem) (n : BitVec 8) : Decidable (s.Serves n) :=
  match h : s.stage with
  | .main => isFalse (not_serves (Or.inl h) n)
  | .acknowledging => isFalse (not_serves (Or.inr (Or.inl h)) n)
  | .cascaded => isFalse (not_serves (Or.inr (Or.inr h)) n)
  | .handler _ _ => decidable_of_iff _ (serves_iff h).symm

/-- An initialization is not the service of an interrupt. -/
theorem initializes_not_serve (port : BitVec 16) (value : BitVec 8) (n : BitVec 8)
    (line : Option Irq) : .serve n line ∉ initializes port value := by
  unfold initializes
  split_ifs <;> simp

/-- The kernel's accesses log no service. -/
theorem access_log (op : PicOp) (s : PicSystem) : ∃ events,
    (s.access op).log = s.log ++ events ∧ ∀ n line, .serve n line ∉ events := by
  cases op with
  | out port value => exact ⟨_, rfl, initializes_not_serve port value⟩
  | inAnd port mask => exact ⟨[], (List.append_nil _).symm, fun _ _ => List.not_mem_nil⟩
  | outValue port => exact ⟨_, rfl, initializes_not_serve port s.value⟩
  | sti => exact ⟨[], (List.append_nil _).symm, fun _ _ => List.not_mem_nil⟩

/-- Every step moves through the stages of an interrupt as listed. -/
theorem stageStep (hstep : PicStep s t) : StageStep s t := by
  cases hstep with
  | device l high hl hchange =>
    refine .stays (fun n => Iff.rfl) _ rfl fun n line hmem => ?_
    cases high <;> simp at hmem
  | main hstage htodo =>
    rename_i op ops
    obtain ⟨events, hlog, hevents⟩ := access_log op s
    have hmain : (s.access op).stage = .main := by
      rw [← hstage]
      cases op <;> rfl
    exact .stays (fun n => iff_of_false (not_serves (Or.inl hmain) n)
      (not_serves (Or.inl hstage) n)) events hlog hevents
  | sample hstage hflag hint =>
    exact .stays (fun n => iff_of_false (not_serves (Or.inr (Or.inl rfl)) n)
      (not_serves (Or.inl hstage) n)) [] (List.append_nil _).symm fun _ _ => List.not_mem_nil
  | pulse1 hstage =>
    have hbefore := not_serves (Or.inr (Or.inl hstage))
    obtain ⟨stage, log, heq, ⟨-, hcascaded, hlog⟩ | ⟨-, hhandler, hlog⟩⟩ := pulse1_eq s
    · rw [heq]
      refine .stays (fun n => iff_of_false (not_serves (Or.inr (Or.inr hcascaded)) n) (hbefore n))
        [] ?_ fun _ _ => List.not_mem_nil
      rw [List.append_nil]
      exact hlog
    · rw [heq]
      exact .enters _ _ hbefore hhandler hlog
  | pulse2 hstage => exact .enters _ _ (not_serves (Or.inr (Or.inr hstage))) rfl rfl
  | endOfInterrupt hstage =>
    exact .stays (fun n => (serves_iff rfl).trans (serves_iff hstage).symm) []
      (List.append_nil _).symm fun _ _ => List.not_mem_nil
  | iret hstage => exact .leaves _ hstage rfl rfl

end Stages

/-! ### One line of the master -/

/-- What a step of the others does for a line of the master: nothing, or it takes its request. -/
inductive LineStep (l : Fin 8) (s t : PicSystem) : Prop
  | kept (hrequested : t.pair.Requested (.master l) ↔ s.pair.Requested (.master l))
      (hserves : t.Serves (lineVector (.master l)) ↔ s.Serves (lineVector (.master l)))
  | taken (hrequested : s.pair.Requested (.master l))
      (hbefore : ¬ s.Serves (lineVector (.master l)))
      (hgone : ¬ t.pair.Requested (.master l)) (hserves : t.Serves (lineVector (.master l)))

section Line

variable {l : Fin 8} {s t : PicSystem} {v₀ : PicView} {w : Finset Irq}
  {before after : List (BitVec 8)}

/-- The master's vectors are distinct. -/
theorem lineVector_master_inj : ∀ k l : Fin 8,
    (0x20 ||| BitVec.ofNat 8 k : BitVec 8) = lineVector (.master l) ↔ k = l := by
  decide

/-- No vector of the slave is one of the master's. -/
theorem slave_ne_lineVector_master : ∀ k l : Fin 8,
    (0x28 ||| BitVec.ofNat 8 k : BitVec 8) ≠ lineVector (.master l) := by
  decide

/-- A line other than the cascade is not the cascade. -/
theorem master_ne (hl : l ≠ cascadeLine) : Irq.master l ≠ .master cascadeLine := fun h =>
  hl (Irq.master.inj h)

/-- The master's pulse takes the line's request exactly when it answers with its vector.  Line 7 is
left out: its vector also stands for no request. -/
theorem pulse1_lineStep (hl : l ≠ cascadeLine) (hspurious : l ≠ 7)
    (hmaster : s.view.master = masterConfig s.view.master.imr)
    (hisr : s.pair.master.isr = ∅) (hstage : s.stage = .acknowledging) :
    LineStep l s s.pulse1 := by
  have hbefore := not_serves (Or.inr (Or.inl hstage)) (lineVector (.master l))
  have hauto : s.pair.master.autoEoi = false := congrArg Config.autoEoi hmaster
  have hcascade : s.pair.master.cascade = 0x04 := congrArg Config.cascade hmaster
  have hbase : s.pair.master.base = 0x20 := congrArg Config.base hmaster
  have hline : s.pair.pulse1.1 = s.pair.master.acknowledge.1 := rfl
  have hrequested := Pair.requested_pulse1 (p := s.pair) (master_ne hl)
  obtain ⟨stage, log, heq, hcases⟩ := pulse1_eq s
  rw [hcascade, cascade_getLsbD, hline, Config.vector, hbase] at hcases
  have hpair : s.pulse1.pair = s.pair.pulse1.2 := by rw [heq]
  have htaken : s.pair.master.request.map Irq.master = some (.master l) ↔
      s.pair.master.acknowledge.1 = l ∧ s.pair.master.request ≠ none := by
    unfold Chip.acknowledge
    cases s.pair.master.request with
    | none => simp
    | some k => simp
  by_cases hdevice : s.pair.master.request.map Irq.master = some (.master l)
  · obtain ⟨hone, hrequest⟩ := htaken.mp hdevice
    obtain ⟨k, hk⟩ := Option.ne_none_iff_exists'.mp hrequest
    have hkl : k = l := by
      rw [hk] at hdevice
      exact Irq.master.inj (Option.some.inj hdevice)
    rw [hone] at hcases
    refine .taken ?_ hbefore ?_ ?_
    · exact (Chip.mem_pending.mp (Chip.request_eq_some_iff.mp (hkl ▸ hk)).1).1
    · rw [hpair, hrequested]
      exact fun h => h.2 hdevice
    · rcases hcases with ⟨h, -, -⟩ | ⟨-, hhandler, -⟩
      · exact absurd (of_decide_eq_true h) hl
      · rw [heq]
        exact ⟨_, hhandler.trans (by rw [(lineVector_master_inj l l).mpr rfl])⟩
  · refine .kept ?_ ?_
    · rw [hpair, hrequested]
      exact and_iff_left hdevice
    · refine iff_of_false ?_ hbefore
      rcases hcases with ⟨-, hcascaded, -⟩ | ⟨-, hhandler, -⟩
      · exact not_serves (Or.inr (Or.inr (by rw [heq]; exact hcascaded))) _
      · rw [serves_iff (by rw [heq]; exact hhandler), lineVector_master_inj]
        intro hone
        refine hdevice (htaken.mpr ⟨hone, fun hnone => ?_⟩)
        rcases Chip.acknowledge_spec hisr hauto with ⟨hsome, -, -⟩ | ⟨-, hseven, -⟩
        · rw [hnone] at hsome
          cases hsome
        · exact hspurious (hone.symm.trans hseven)

/-- To a line of the master the second pulse is such a step. -/
theorem pulse2_lineStep (hl : l ≠ cascadeLine)
    (hslave : s.view.slave = slaveConfig s.view.slave.imr) (hstage : s.stage = .cascaded) :
    LineStep l s s.pulse2 := by
  have hbase : s.pair.slave.base = 0x28 := congrArg Config.base hslave
  refine .kept ?_ (iff_of_false ?_ (not_serves (Or.inr (Or.inr hstage)) _))
  · refine (Pair.requested_pulse2 (master_ne hl)).trans (and_iff_left ?_)
    cases s.pair.slave.request <;> simp
  · have hhandler : s.pulse2.stage = .handler (s.pair.slave.vector s.pair.slave.acknowledge.1)
        (irqHandler (s.pair.slave.vector s.pair.slave.acknowledge.1)) := rfl
    rw [serves_iff hhandler, Config.vector, hbase]
    exact slave_ne_lineVector_master _ _

/-- A line reads the level it was given. -/
theorem setLine_isHigh {p : Pair} {k : Irq} {high : Bool} (hk : k ≠ .master cascadeLine) :
    (p.setLine k high).isHigh k = high := by
  have hlevel : ∀ (c : Chip) (i : Fin 8), decide (i ∈ (c.drive i high).level) = high := by
    intro c i
    rw [Chip.drive_level]
    cases high <;> simp
  cases k with
  | master i =>
    unfold Pair.setLine
    dsimp only
    rw [if_neg fun h => hk (congrArg Irq.master h)]
    exact hlevel p.master i
  | slave i => exact hlevel p.slave i

/-- The other devices, the main program and the processor take the line's request when they serve
it, and change nothing else for it. -/
theorem lineStep (hl : l ≠ cascadeLine) (hspurious : l ≠ 7) (h : PicInv before after v₀ w s)
    (hv₀ : v₀.interruptFlag = false)
    (hready : s.todo.length + 3 ≤ (picProgram before after).length) (hstep : PicStep s t)
    (hline : t.pair.isHigh (.master l) = s.pair.isHigh (.master l))
    (hcallback : s.stage = .handler (lineVector (.master l)) [] →
      t.stage = .handler (lineVector (.master l)) []) : LineStep l s t := by
  have hremapped := h.remapped hv₀
  have hon : s.stage ≠ .main → s.interruptFlag = true := fun hstage =>
    Bool.eq_true_of_not_eq_false fun hoff => hstage (h.inService.flag hoff)
  have hisr := h.inService.stage
  cases hstep with
  | device k high hk hchange =>
    refine .kept (Pair.requested_setLine_of_ne (master_ne hl) ?_) Iff.rfl
    rintro rfl
    exact hchange (hline.symm.trans (setLine_isHigh hk))
  | main hstage htodo =>
    rename_i op ops
    obtain ⟨executed, hprogram, -⟩ := h.undisturbed.view
    rw [htodo] at hprogram hready
    have hmem : op ∈ (picProgram before after).drop 3 := by
      rw [hprogram, List.length_append] at hready
      rw [hprogram, List.drop_append_of_le_length (by omega)]
      exact List.mem_append_right _ List.mem_cons_self
    have hkeeps := keepsEdges_of_mem hmem
    have hout : ∀ {port : BitVec 16} {value : BitVec 8}, port ≠ pic1Command ∧ port ≠ pic2Command →
        ((picOutb port value s.pair).Requested (.master l) ↔ s.pair.Requested (.master l)) :=
      fun hport => (requested_picOutb (master_ne hl)).trans (and_iff_left fun hw => hport.1 hw.2)
    have hmain : (s.access op).stage = .main := by
      rw [← hstage]
      cases op <;> rfl
    refine .kept ?_ (iff_of_false (not_serves (Or.inl hmain) _) (not_serves (Or.inl hstage) _))
    cases op with
    | out port value => exact hout hkeeps
    | inAnd port mask => exact Iff.rfl
    | outValue port => exact hout hkeeps
    | sti => exact Iff.rfl
  | sample hstage hflag hint =>
    exact .kept Iff.rfl (iff_of_false (not_serves (Or.inr (Or.inl rfl)) _)
      (not_serves (Or.inl hstage) _))
  | pulse1 hstage =>
    rw [hstage] at hisr
    exact pulse1_lineStep hl hspurious
      (hremapped (hon (by rw [hstage]; exact Stage.noConfusion))).1.1 hisr.1 hstage
  | pulse2 hstage =>
    exact pulse2_lineStep hl (hremapped (hon (by rw [hstage]; exact Stage.noConfusion))).1.2 hstage
  | endOfInterrupt hstage =>
    rename_i intNo port value writes
    refine .kept ?_ ((serves_iff rfl).trans (serves_iff hstage).symm)
    refine (requested_picOutb (master_ne hl)).trans (and_iff_left ?_)
    have heoi : (Chip.endOfInterrupt).getLsbD 4 = false := by decide
    rintro ⟨hinit, -⟩
    rcases h.undisturbed.eoi _ _ hstage _ List.mem_cons_self with hw | hw <;>
      (obtain ⟨-, rfl⟩ := Prod.mk.inj hw; rw [heoi] at hinit; cases hinit)
  | iret hstage =>
    refine .kept Iff.rfl (iff_of_false (not_serves (Or.inl rfl) _) ?_)
    rw [serves_iff hstage]
    rintro rfl
    exact Stage.noConfusion (hcallback hstage)

/-- A step never lengthens what is left of the program. -/
theorem picStep_todo (hstep : PicStep s t) : t.todo.length ≤ s.todo.length := by
  cases hstep with
  | main hstage htodo =>
    rw [htodo]
    exact Nat.le_succ _
  | pulse1 hstage =>
    obtain ⟨stage, log, heq, -⟩ := pulse1_eq s
    rw [heq]
  | _ => exact le_rfl

end Line

end AuriOS
