import AuriOS.Mm.AddressSpace

/-!
# Runs of `mmu_map_page`

What a run of calls does to the rights of a page, from the tables that `mmu_init` builds.

* `mmuMapPage_cases`: a call finds the table of the slot or installs a new one;
* `tabled_run`: what holds of the tables after any run, so that a new table is always fresh as long
  as memory lasts (`fresh_of_tabled`);
* `mapPage_rights_iff`: the rights of the mapped page are those asked for exactly when the directory
  entry of its slot does not stand in the way.
-/

namespace AuriOS

open Program RecursiveTable

/-! ### One call -/

section Call

variable {s : Machine} {virt : BitVec 32}

/-- A call writes an entry of the table that is there, or of a table that it installs first. -/
theorem mmuMapPage_cases (h : Recursive s) (hk : pdIndex virt ≠ 1023)
    (hfresh : s.table (pdIndex virt) = none → ∀ a bm, pmmAllocFrame s.bitmap = .ok (a, bm) →
      Fresh decodeEntry s.mem s.root (frameOf a)) (phys : BitVec 32) (isWriteable isUser : Bool) :
    (∃ t, s.table (pdIndex virt) = some t ∧ mmuMapPage phys virt isWriteable isUser s =
      .ok ((), s.mapped t phys virt isWriteable isUser s.mem)) ∨
    ∃ a bm evs, s.table (pdIndex virt) = none ∧ pmmAllocFrame s.bitmap = .ok (a, bm) ∧
      Fresh decodeEntry s.mem s.root (frameOf a) ∧ mmuMapPage phys virt isWriteable isUser s =
        .ok ((), (s.installed (pdIndex virt) isUser a bm evs).mapped (frameOf a) phys virt
          isWriteable isUser s.mem) := by
  cases ht : s.table (pdIndex virt) with
  | some t =>
    have hensure := ensureTableWith_present onFault h (shiftRight_pdIndex virt) ht isUser
    exact Or.inl ⟨t, rfl, mmuMapPageWith_eq onFault phys isWriteable hensure h ht⟩
  | none =>
    obtain ⟨a, bm, halloc⟩ := exists_pmmAllocFrame s.bitmap
    have hfr := hfresh ht a bm halloc
    obtain ⟨evs, hensure, -⟩ := ensureTableWith_absent onFault h (shiftRight_pdIndex virt)
      hk ht halloc hfr.1 isUser
    have htable : (s.installed (pdIndex virt) isUser a bm evs).table (pdIndex virt) =
        some (frameOf a) :=
      (table_install hfr.1 (decodeEntry_pdeWord _ _) _).trans (if_pos rfl)
    exact Or.inr ⟨a, bm, evs, rfl, halloc, hfr, mmuMapPageWith_eq onFault phys isWriteable hensure
      (recursive_installed h hk hfr isUser bm evs) htable⟩

end Call

/-! ### What a run keeps -/

/-- The directory maps itself for the kernel, every entry of it is writable, and the allocator does
not give away a frame of the tables. -/
structure Tabled (s : Machine) : Prop extends Recursive s where
  root_ne_zero : s.root ≠ 0
  slot_self : decodeEntry (s.mem s.root 1023) = some (s.root, ⟨true, false⟩)
  writable : ∀ k t p, decodeEntry (s.mem s.root k) = some (t, p) → p.writable = true
  used : ∀ k t, s.table k = some t → t ≠ 0 → s.bitmap.used t.toNat = true

/-- The other users of the allocator do not free a table. -/
def Machine.KeepsTables (s : Machine) (bm : Bitmap) : Prop :=
  ∀ k t, s.table k = some t → s.bitmap.used t.toNat = true → bm.used t.toNat = true

/-- If a call has to allocate a table, then there is a frame for it. -/
def FrameAvailable (s : Machine) (virt : BitVec 32) : Prop :=
  s.table (pdIndex virt) = none → ∀ a bm, pmmAllocFrame s.bitmap = .ok (a, bm) → a ≠ 0

section Kept

variable {s : Machine} {virt : BitVec 32} {t : BitVec 20}

/-- After the boot the tables are as they should be. -/
theorem Booted.tabled (h : Booted s t) : Tabled s where
  toRecursive := h.recursive
  root_ne_zero := h.root_ne_zero
  slot_self := h.slot_self
  writable := by
    intro k u p hp
    by_cases hk0 : k = 0
    · rw [hk0, h.slot_zero] at hp
      obtain ⟨rfl, rfl⟩ := Prod.mk.inj (Option.some.inj hp)
      rfl
    · by_cases hk : k = 1023
      · rw [hk, h.slot_self] at hp
        obtain ⟨rfl, rfl⟩ := Prod.mk.inj (Option.some.inj hp)
        rfl
      · rw [h.slot_absent k hk0 hk] at hp
        exact absurd hp (by simp)
  used := by
    intro k u hu _
    obtain ⟨p, hp⟩ := table_eq_some_iff.mp hu
    by_cases hk0 : k = 0
    · rw [hk0, h.slot_zero] at hp
      obtain ⟨rfl, -⟩ := Prod.mk.inj (Option.some.inj hp)
      exact h.table_used
    · by_cases hk : k = 1023
      · rw [hk, h.slot_self] at hp
        obtain ⟨rfl, -⟩ := Prod.mk.inj (Option.some.inj hp)
        exact h.root_used
      · rw [h.slot_absent k hk0 hk] at hp
        exact absurd hp (by simp)

/-- Another bitmap keeps the tables while it gives none of them away. -/
theorem Tabled.setBitmap (h : Tabled s) {bm : Bitmap} (hbm : s.KeepsTables bm) :
    Tabled { s with bitmap := bm } where
  toRecursive := recursive_setBitmap h.toRecursive bm
  root_ne_zero := h.root_ne_zero
  slot_self := h.slot_self
  writable := h.writable
  used k t ht ht0 := hbm k t ht (h.used k t ht ht0)

/-- A frame that the allocator gives is no table; frame 0 is one if memory ran out before. -/
theorem fresh_of_tabled (h : Tabled s) {a : BitVec 32} {bm : Bitmap}
    (halloc : pmmAllocFrame s.bitmap = .ok (a, bm)) (ha : a ≠ 0 ∨ ∀ k, s.table k ≠ some 0) :
    Fresh decodeEntry s.mem s.root (frameOf a) := by
  have hself : s.table 1023 = some s.root := h.selfMap
  by_cases hzero : a = 0
  · subst hzero
    exact ⟨Ne.symm h.root_ne_zero, fun k => ha.resolve_left (fun hne => hne rfl) k⟩
  · have hallocated := allocated_of_ne_zero halloc hzero
    have hframe : frameOf a ≠ 0 := fun h0 => hzero (hallocated.frame_zero_iff.mp h0)
    have hno : ∀ k, s.table k ≠ some (frameOf a) := by
      intro k hk
      have hused := h.used k (frameOf a) hk hframe
      rw [hallocated.free] at hused
      exact absurd hused (by simp)
    exact ⟨fun heq => hno 1023 (heq ▸ hself), hno⟩

/-- A frame taken for a table is not among the tables. -/
theorem Tabled.freshTable (h : Tabled s) (havailable : FrameAvailable s virt)
    (ht : s.table (pdIndex virt) = none) (a : BitVec 32) (bm : Bitmap)
    (halloc : pmmAllocFrame s.bitmap = .ok (a, bm)) :
    Fresh decodeEntry s.mem s.root (frameOf a) :=
  fresh_of_tabled h halloc (Or.inl (havailable ht a bm halloc))

/-- An entry written into a table below the directory keeps all this. -/
theorem Tabled.mapped (h : Tabled s) (hk : pdIndex virt ≠ 1023)
    (ht : s.table (pdIndex virt) = some t)
    (phys : BitVec 32) (isWriteable isUser : Bool) (before : PhysMem) :
    Tabled (s.mapped t phys virt isWriteable isUser before) := by
  have hne := table_ne_root h.toRecursive hk ht
  have hroot : (s.mapped t phys virt isWriteable isUser before).mem s.root = s.mem s.root := by
    funext k
    exact write_of_ne _ _ _ _ _ _ hne
  refine ⟨recursive_mapped h.toRecursive hk ht phys isWriteable isUser before, h.root_ne_zero,
    ?_, ?_, ?_⟩
  · exact (congrArg decodeEntry (congrFun hroot 1023)).trans h.slot_self
  · intro k u p hp
    exact h.writable k u p ((congrArg decodeEntry (congrFun hroot k)).symm.trans hp)
  · intro k u hu
    exact h.used k u ((table_write_of_ne hne k).symm.trans hu)

/-- So does a new table in a fresh frame. -/
theorem Tabled.installed (h : Tabled s) {k : BitVec 10} (hk : k ≠ 1023) {a : BitVec 32}
    {bm : Bitmap} (halloc : pmmAllocFrame s.bitmap = .ok (a, bm))
    (hfresh : Fresh decodeEntry s.mem s.root (frameOf a)) (isUser : Bool) (evs : List Event) :
    Tabled (s.installed k isUser a bm evs) := by
  have hroot : ∀ j, (s.installed k isUser a bm evs).mem s.root j =
      if j = k then pdeWord (frameOf a) isUser else s.mem s.root j :=
    fun j => install_root hfresh.1 j
  have hkeeps : ∀ f, s.bitmap.used f = true → bm.used f = true := by
    intro f hf
    by_cases ha : a = 0
    · rcases pmmAllocFrame_cases s.bitmap with ⟨-, hzero⟩ | ⟨b, bm₁, hok, hall⟩
      · rw [hzero] at halloc
        obtain ⟨-, rfl⟩ := Prod.mk.inj (Except.ok.inj halloc)
        exact hf
      · rw [hok] at halloc
        obtain ⟨-, rfl⟩ := Prod.mk.inj (Except.ok.inj halloc)
        exact (hall.used_eq f).mpr (Or.inl hf)
    · exact ((allocated_of_ne_zero halloc ha).used_eq f).mpr (Or.inl hf)
  refine ⟨recursive_installed h.toRecursive hk hfresh isUser bm evs, h.root_ne_zero, ?_, ?_, ?_⟩
  · refine (congrArg decodeEntry (hroot 1023)).trans ?_
    rw [if_neg (Ne.symm hk)]
    exact h.slot_self
  · intro j u p hp
    replace hp := (congrArg decodeEntry (hroot j)).symm.trans hp
    split at hp
    · rw [decodeEntry_pdeWord] at hp
      obtain ⟨-, rfl⟩ := Prod.mk.inj (Option.some.inj hp)
      rfl
    · exact h.writable j u p hp
  · intro j u hu hu0
    replace hu := (table_install hfresh.1 (decodeEntry_pdeWord _ isUser) j).symm.trans hu
    split at hu
    · obtain rfl := Option.some.inj hu
      have ha : a ≠ 0 := by
        rintro rfl
        exact hu0 rfl
      exact ((allocated_of_ne_zero halloc ha).used_eq _).mpr (Or.inr rfl)
    · exact hkeeps _ (h.used j u hu hu0)

end Kept

/-- One call of `mmu_map_page` below the window that gets a frame if it needs one. -/
inductive CallStep : Machine → Machine → Prop
  | call {s s' : Machine} (bm : Bitmap) (phys virt : BitVec 32) (isWriteable isUser : Bool) :
      s.KeepsTables bm → virt < 0xFFC00000 → FrameAvailable { s with bitmap := bm } virt →
      mmuMapPage phys virt isWriteable isUser { s with bitmap := bm } = .ok ((), s') →
      CallStep s s'

section Run

variable {s s' : Machine} {virt : BitVec 32}

/-- A call keeps the tables in order. -/
theorem tabled_call (h : Tabled s) (hk : pdIndex virt ≠ 1023)
    (hfresh : s.table (pdIndex virt) = none → ∀ a bm, pmmAllocFrame s.bitmap = .ok (a, bm) →
      Fresh decodeEntry s.mem s.root (frameOf a)) {phys : BitVec 32} {isWriteable isUser : Bool}
    (hrun : mmuMapPage phys virt isWriteable isUser s = .ok ((), s')) :
    Tabled s' ∧ s'.kernelDirectory = s.kernelDirectory := by
  rcases mmuMapPage_cases h.toRecursive hk hfresh phys isWriteable isUser with
    ⟨t, ht, hcall⟩ | ⟨a, bm, evs, ht, halloc, hfr, hcall⟩
  · rw [hcall] at hrun
    obtain rfl := (Prod.mk.inj (Except.ok.inj hrun)).2
    exact ⟨h.mapped hk ht phys isWriteable isUser s.mem, rfl⟩
  · rw [hcall] at hrun
    obtain rfl := (Prod.mk.inj (Except.ok.inj hrun)).2
    have htable : (s.installed (pdIndex virt) isUser a bm evs).table (pdIndex virt) =
        some (frameOf a) :=
      (table_install hfr.1 (decodeEntry_pdeWord _ _) _).trans (if_pos rfl)
    exact ⟨(h.installed hk halloc hfr isUser evs).mapped hk htable phys isWriteable isUser s.mem,
      rfl⟩

/-- Every call keeps the tables as they should be. -/
theorem tabled_step (h : Tabled s) (hstep : CallStep s s') : Tabled s' := by
  cases hstep with
  | call bm phys virt isWriteable isUser hbm hvirt havailable hrun =>
    have hset := h.setBitmap hbm
    exact (tabled_call hset (pdIndex_ne_window.mpr hvirt) (hset.freshTable havailable) hrun).1

/-- A run of calls keeps the tables as they should be. -/
theorem tabled_run {s₀ : Machine} (h₀ : Tabled s₀) (hrun : Relation.ReflTransGen CallStep s₀ s) :
    Tabled s :=
  run_invariant Tabled hrun h₀ tabled_step

end Run

/-! ### Rights -/

/-- The rights of a page: what the directory and the table both grant. -/
def Machine.rights (s : Machine) (va : BitVec 32) : Option Rights :=
  (walk s.mem s.root va).map Prod.snd

/-- The directory entry of a slot, if there is one, lets the user in. -/
def Machine.UserSlot (s : Machine) (k : BitVec 10) : Prop :=
  ∀ t p, decodeEntry (s.mem s.root k) = some (t, p) → p.user = true

/-- The page of the window that shows the table of a slot. -/
def windowPage (k : BitVec 10) : ℕ := 0xFFC00 + k.toNat

section RightsOfACall

variable {s : Machine} {virt va : BitVec 32} {t : BitVec 20}

/-- The indices of the pages of the window. -/
theorem windowPage_eq_iff {k : BitVec 10} :
    va.toNat / pageSize = windowPage k ↔ pdIndex va = 1023 ∧ ptIndex va = k := by
  have hva := va.isLt
  have hk := k.isLt
  have hlast : (1023 : BitVec 10).toNat = 1023 := rfl
  rw [← BitVec.toNat_inj, ← BitVec.toNat_inj, pdIndex_toNat, ptIndex_toNat, hlast, pageSize,
    windowPage]
  omega

/-- An entry written into the table of a slot gives its page these rights, as far as the directory
entry does. -/
theorem rights_mapped (h : Tabled s) (hk : pdIndex virt ≠ 1023) {p : Rights}
    (hslot : decodeEntry (s.mem s.root (pdIndex virt)) = some (t, p)) (phys : BitVec 32)
    (isWriteable isUser : Bool) (before : PhysMem) :
    (s.mapped t phys virt isWriteable isUser before).rights virt =
        some (min p ⟨isWriteable, isUser⟩) ∧
      ∀ va : BitVec 32, va.toNat / pageSize ≠ virt.toNat / pageSize →
        (s.mapped t phys virt isWriteable isUser before).rights va = s.rights va := by
  have ht : s.table (pdIndex virt) = some t := table_eq_some_iff.mpr ⟨p, hslot⟩
  have hupdate := fun i j => walk_write h.selfMap h.injective hk ht
    (e := pteWord (frameOf phys) isWriteable isUser) (j := ptIndex virt) i j
  constructor
  · have hentry := (hupdate (pdIndex virt) (ptIndex virt)).trans (if_pos ⟨rfl, rfl⟩)
    rw [hslot, decodeEntry_pteWord] at hentry
    exact congrArg (Option.map Prod.snd) hentry
  · intro va hpage
    refine congrArg (Option.map Prod.snd) ((hupdate (pdIndex va) (ptIndex va)).trans (if_neg ?_))
    exact fun hc => hpage (page_eq_iff.mp hc)

/-- A new table shows in its page of the window and nowhere else. -/
theorem rights_installed (h : Tabled s) {k : BitVec 10} (hk : k ≠ 1023)
    (habsent : s.table k = none) {a : BitVec 32} (bm : Bitmap)
    (hfresh : Fresh decodeEntry s.mem s.root (frameOf a)) (isUser : Bool) (evs : List Event)
    (va : BitVec 32) :
    (va.toNat / pageSize ≠ windowPage k →
        (s.installed k isUser a bm evs).rights va = s.rights va) ∧
      (va.toNat / pageSize = windowPage k → s.rights va = none ∧
        (s.installed k isUser a bm evs).rights va = some ⟨true, false⟩) := by
  have hself := h.slot_self
  have hroot : ∀ j, (s.installed k isUser a bm evs).mem s.root j =
      if j = k then pdeWord (frameOf a) isUser else s.mem s.root j :=
    fun j => install_root hfresh.1 j
  constructor
  · intro hpage
    by_cases hwindow : pdIndex va = 1023
    · -- another page of the window: neither directory entry has changed
      have hne : ptIndex va ≠ k := fun hj => hpage (windowPage_eq_iff.mpr ⟨hwindow, hj⟩)
      refine congrArg (Option.map Prod.snd) (walk_congr ?_ fun u hu => ?_)
      · rw [hwindow]
        exact (hroot 1023).trans (if_neg (Ne.symm hk))
      · rw [hwindow] at hu
        obtain rfl : s.root = u := Option.some.inj (h.selfMap.symm.trans hu)
        exact (hroot (ptIndex va)).trans (if_neg hne)
    · exact congrArg (Option.map Prod.snd) (walk_install h.selfMap h.injective hfresh habsent
        (decodeEntry_pdeWord _ _) decodeEntry_zero _ _ hwindow)
  · intro hpage
    obtain ⟨hwindow, hindex⟩ := windowPage_eq_iff.mp hpage
    have habsent' : decodeEntry (s.mem s.root k) = none := table_eq_none_iff.mp habsent
    have hself' : decodeEntry ((s.installed k isUser a bm evs).mem s.root 1023) =
        some (s.root, ⟨true, false⟩) :=
      ((congrArg decodeEntry (hroot 1023)).trans (by rw [if_neg (Ne.symm hk)])).trans hself
    have hentry : decodeEntry ((s.installed k isUser a bm evs).mem s.root k) =
        some (frameOf a, ⟨true, isUser⟩) :=
      ((congrArg decodeEntry (hroot k)).trans (by rw [if_pos rfl])).trans (decodeEntry_pdeWord _ _)
    constructor
    · unfold Machine.rights walk RecursiveTable.walk
      rw [hwindow, hindex, hself, Option.bind_some, habsent']
      rfl
    · unfold Machine.rights walk RecursiveTable.walk
      change Option.map Prod.snd ((decodeEntry ((s.installed k isUser a bm evs).mem s.root
        (pdIndex va))).bind _) = _
      rw [hwindow, hindex, hself', Option.bind_some, hentry]
      rfl

/-- A writable table leaves a page its rights exactly when a user's page is in a user's table. -/
theorem min_rights_iff {p : Rights} (hp : p.writable = true) (isWriteable isUser : Bool) :
    min p ⟨isWriteable, isUser⟩ = ⟨isWriteable, isUser⟩ ↔ (isUser = true → p.user = true) := by
  obtain ⟨writable, user⟩ := p
  obtain rfl : writable = true := hp
  cases isWriteable <;> cases isUser <;> cases user <;> decide

/-- One call, in a state with its tables in order. -/
theorem rights_call (h : Tabled s) (hvirt : virt < 0xFFC00000) (havailable : FrameAvailable s virt)
    (phys : BitVec 32) (isWriteable isUser : Bool) :
    ∃ s', mmuMapPage phys virt isWriteable isUser s = .ok ((), s') ∧
      (s'.rights virt = some ⟨isWriteable, isUser⟩ ↔
        (isUser = true → s.UserSlot (pdIndex virt))) ∧
      ∀ va : BitVec 32, va.toNat / pageSize ≠ virt.toNat / pageSize →
        (s.table (pdIndex virt) = none ∧ va.toNat / pageSize = windowPage (pdIndex virt) →
          s.rights va = none ∧ s'.rights va = some ⟨true, false⟩) ∧
        (¬ (s.table (pdIndex virt) = none ∧ va.toNat / pageSize = windowPage (pdIndex virt)) →
          s'.rights va = s.rights va) := by
  have hk := pdIndex_ne_window.mpr hvirt
  rcases mmuMapPage_cases h.toRecursive hk (h.freshTable havailable) phys isWriteable isUser with
    ⟨t, ht, hcall⟩ | ⟨a, bm, evs, ht, halloc, hfr, hcall⟩
  · obtain ⟨p, hslot⟩ := table_eq_some_iff.mp ht
    obtain ⟨hrights, hother⟩ := rights_mapped h hk hslot phys isWriteable isUser s.mem
    refine ⟨_, hcall, ?_, fun va hpage => ⟨fun hc => ?_, fun _ => hother va hpage⟩⟩
    · rw [hrights, Option.some_inj, min_rights_iff (h.writable _ _ _ hslot)]
      refine forall_congr' fun _ => ?_
      constructor
      · intro hp u q hq
        rw [hslot] at hq
        obtain ⟨-, rfl⟩ := Prod.mk.inj (Option.some.inj hq)
        exact hp
      · exact fun huser => huser t p hslot
    · rw [ht] at hc
      exact absurd hc.1 (by simp)
  · have hinstalled := h.installed hk halloc hfr isUser evs
    have hslot : decodeEntry ((s.installed (pdIndex virt) isUser a bm evs).mem s.root
        (pdIndex virt)) = some (frameOf a, ⟨true, isUser⟩) :=
      ((congrArg decodeEntry (install_root hfr.1 _)).trans (by rw [if_pos rfl])).trans
        (decodeEntry_pdeWord _ _)
    obtain ⟨hrights, hother⟩ := rights_mapped hinstalled hk hslot phys isWriteable isUser s.mem
    have hnew := rights_installed h hk ht bm hfr isUser evs
    refine ⟨_, hcall, ?_, fun va hpage => ⟨fun hc => ?_, fun hc => ?_⟩⟩
    · have hmin : min (⟨true, isUser⟩ : Rights) ⟨isWriteable, isUser⟩ = ⟨isWriteable, isUser⟩ :=
        (min_rights_iff rfl isWriteable isUser).mpr id
      rw [hrights, hmin]
      refine iff_of_true rfl fun _ u q hq => ?_
      rw [table_eq_none_iff.mp ht] at hq
      exact absurd hq (by simp)
    · rw [hother va hpage]
      exact (hnew va).2 hc.2
    · rw [hother va hpage]
      exact (hnew va).1 fun hwindow => hc ⟨ht, hwindow⟩

/-- Whether a slot lets the user in is decided by the call that brings its table. -/
theorem userSlot_call (h : Tabled s) (hvirt : virt < 0xFFC00000)
    (havailable : FrameAvailable s virt)
    {phys : BitVec 32} {isWriteable isUser : Bool} {s' : Machine}
    (hcall : mmuMapPage phys virt isWriteable isUser s = .ok ((), s')) (k : BitVec 10) :
    s'.UserSlot k ↔
      if k = pdIndex virt ∧ s.table k = none then isUser = true else s.UserSlot k := by
  have hk := pdIndex_ne_window.mpr hvirt
  rcases mmuMapPage_cases h.toRecursive hk (h.freshTable havailable) phys isWriteable isUser with
    ⟨t, ht, hrun⟩ | ⟨a, bm, evs, ht, halloc, hfr, hrun⟩
  · rw [hrun] at hcall
    obtain rfl := (Prod.mk.inj (Except.ok.inj hcall)).2
    have hroot : (s.mapped t phys virt isWriteable isUser s.mem).mem s.root k = s.mem s.root k :=
      write_of_ne _ _ _ _ _ _ (table_ne_root h.toRecursive hk ht)
    rw [if_neg]
    · change (∀ t p, decodeEntry (Machine.mem _ s.root k) = some (t, p) → p.user = true) ↔ _
      rw [hroot]
      rfl
    · rintro ⟨rfl, hnone⟩
      rw [ht] at hnone
      exact absurd hnone (by simp)
  · rw [hrun] at hcall
    obtain rfl := (Prod.mk.inj (Except.ok.inj hcall)).2
    have hroot : ((s.installed (pdIndex virt) isUser a bm evs).mapped (frameOf a) phys virt
        isWriteable isUser s.mem).mem s.root k =
          if k = pdIndex virt then pdeWord (frameOf a) isUser else s.mem s.root k :=
      (write_of_ne _ _ _ _ _ _ (Ne.symm hfr.1)).trans (install_root hfr.1 k)
    change (∀ t p, decodeEntry (Machine.mem _ s.root k) = some (t, p) → p.user = true) ↔ _
    rw [hroot]
    by_cases hslot : k = pdIndex virt
    · rw [if_pos hslot, if_pos ⟨hslot, hslot ▸ ht⟩, decodeEntry_pdeWord]
      constructor
      · exact fun huser => huser _ _ rfl
      · rintro huser _ _ ⟨⟩
        exact huser
    · rw [if_neg hslot, if_neg fun hc => hslot hc.1]
      rfl

end RightsOfACall

/-- **The rights of a page.** After any run of calls, with any flags, the next call gives its page
exactly the rights asked for, and leaves those of every other page below the window alone, if and
only if it asks for no user page or the slot has no table yet or one that a user page brought.  In
the window one page appears when a table is installed, for the kernel alone. -/
theorem mapPage_rights_iff {bm : Bitmap} {mem : PhysMem} {s₀ s : Machine}
    (hboot : (do mmuInit; mmuEnable : Kernel Unit) (.boot bm mem) = .ok ((), s₀))
    (hrun : Relation.ReflTransGen CallStep s₀ s) {bm' : Bitmap} (hbm : s.KeepsTables bm')
    {virt : BitVec 32} (hvirt : virt < 0xFFC00000)
    (havailable : FrameAvailable { s with bitmap := bm' } virt) (phys : BitVec 32)
    (isWriteable isUser : Bool) :
    ∃ s', mmuMapPage phys virt isWriteable isUser { s with bitmap := bm' } = .ok ((), s') ∧
      ((s'.rights virt = some ⟨isWriteable, isUser⟩ ∧
          ∀ va : BitVec 32, va < 0xFFC00000 → va.toNat / pageSize ≠ virt.toNat / pageSize →
            s'.rights va = s.rights va) ↔
        (isUser = true → s.UserSlot (pdIndex virt))) ∧
      ∀ va : BitVec 32, 0xFFC00000 ≤ va →
        if s.table (pdIndex virt) = none ∧ va.toNat / pageSize = windowPage (pdIndex virt) then
          s.rights va = none ∧ s'.rights va = some ⟨true, false⟩
        else s'.rights va = s.rights va := by
  obtain ⟨t, hbooted⟩ := mmuInit_booted onFault hboot
  have hset := (tabled_run hbooted.tabled hrun).setBitmap hbm
  obtain ⟨s', hcall, hiff, hother⟩ := rights_call hset hvirt havailable phys isWriteable isUser
  have hwindow : ∀ va : BitVec 32, va.toNat / pageSize = windowPage (pdIndex virt) →
      ¬ va < 0xFFC00000 := fun va hpage hlt =>
    pdIndex_ne_window.mpr hlt (windowPage_eq_iff.mp hpage).1
  refine ⟨s', hcall, ?_, fun va hva => ?_⟩
  · rw [hiff]
    refine and_iff_left fun va hva hpage => ?_
    exact (hother va hpage).2 fun hc => hwindow va hc.2 hva
  · have hpage : va.toNat / pageSize ≠ virt.toNat / pageSize := by
      intro heq
      have hslot : pdIndex va ≠ 1023 := by
        rw [(page_eq_iff.mpr heq).1]
        exact pdIndex_ne_window.mpr hvirt
      exact absurd (pdIndex_ne_window.mp hslot) (BitVec.not_lt.mpr hva)
    split
    · next hc => exact (hother va hpage).1 hc
    · next hc => exact (hother va hpage).2 hc

/-- `mmu_init` on eight frames, of which frame 0 is used; then the next one is frame 3. -/
theorem mmuInit_eight (mem : PhysMem) : ∃ s₀ bm,
    (do mmuInit; mmuEnable : Kernel Unit) (.boot ⟨[0x01#8], by decide⟩ mem) = .ok ((), s₀) ∧
      pmmAllocFrame s₀.bitmap = .ok (0x3000, bm) ∧ s₀.mem 3 = mem 3 := by
  have hpd : pmmAllocFrame ⟨[0x01#8], by decide⟩ = .ok (0x1000, ⟨[0x03#8], by decide⟩) := by rfl
  have hpt : pmmAllocFrame ⟨[0x03#8], by decide⟩ = .ok (0x2000, ⟨[0x07#8], by decide⟩) := by rfl
  have hnext : pmmAllocFrame ⟨[0x07#8], by decide⟩ = .ok (0x3000, ⟨[0x0F#8], by decide⟩) := by rfl
  obtain ⟨evs, hrun, -⟩ := mmuInit_ok onFault mem hpd (by decide) hpt (by decide)
  refine ⟨_, _, bind_of_ok (f := fun _ => mmuEnable) hrun, hnext, ?_⟩
  change initialTables mem (frameOf 0x1000) (frameOf 0x2000) 3 = mem 3
  have hd : (3 : BitVec 20) ≠ frameOf 0x1000 := by decide
  have ht : (3 : BitVec 20) ≠ frameOf 0x2000 := by decide
  funext j
  rw [initialTables, write_of_ne _ _ _ _ _ _ hd, write_of_ne _ _ _ _ _ _ hd,
    Function.update_of_ne ht, Function.update_of_ne ht, Function.update_of_ne hd]

/-- A call has a frame when the allocator gives one. -/
theorem frameAvailable_of_ok {s : Machine} {a : BitVec 32} {bm : Bitmap}
    (h : pmmAllocFrame s.bitmap = .ok (a, bm)) (ha : a ≠ 0) (virt : BitVec 32) :
    FrameAvailable s virt := by
  intro _ a' bm' halloc
  obtain ⟨rfl, -⟩ := Prod.mk.inj (Except.ok.inj (h.symm.trans halloc))
  exact ha

/-- A user page in the first slot that is free. -/
theorem mapPage_rights_iff_user : ∃ s₀ s',
    mmuMapPage 0x5000 0x400000 true true s₀ = .ok ((), s') ∧
      ((s'.rights 0x400000 = some ⟨true, true⟩ ∧
          ∀ va : BitVec 32, va < 0xFFC00000 →
            va.toNat / pageSize ≠ (0x400000 : BitVec 32).toNat / pageSize →
              s'.rights va = s₀.rights va) ↔
        (true = true → s₀.UserSlot (pdIndex 0x400000))) ∧
      ∀ va : BitVec 32, 0xFFC00000 ≤ va →
        if s₀.table (pdIndex 0x400000) = none ∧
            va.toNat / pageSize = windowPage (pdIndex 0x400000) then
          s₀.rights va = none ∧ s'.rights va = some ⟨true, false⟩
        else s'.rights va = s₀.rights va := by
  obtain ⟨s₀, bm, hboot, halloc, -⟩ := mmuInit_eight fun _ _ => 0
  have havailable := frameAvailable_of_ok halloc (by decide)
  exact ⟨s₀, mapPage_rights_iff hboot .refl (fun _ _ _ hused => hused) (by decide)
    (havailable 0x400000) 0x5000 true true⟩

/-- The identity table belongs to the kernel: a user page in the first 4 MiB stays out of reach. -/
theorem mapPage_rights_identity : ¬ ∀ (bm : Bitmap) (mem : PhysMem) (s₀ s s' : Machine)
    (phys virt : BitVec 32) (isWriteable isUser : Bool),
    (do mmuInit; mmuEnable : Kernel Unit) (.boot bm mem) = .ok ((), s₀) →
    Relation.ReflTransGen CallStep s₀ s → virt < 0xFFC00000 → FrameAvailable s virt →
    mmuMapPage phys virt isWriteable isUser s = .ok ((), s') →
    s'.rights virt = some ⟨isWriteable, isUser⟩ := by
  intro hall
  obtain ⟨s₀, bm, hboot, halloc, -⟩ := mmuInit_eight fun _ _ => 0
  have havailable := frameAvailable_of_ok halloc (by decide)
  obtain ⟨t, hbooted⟩ := mmuInit_booted onFault hboot
  obtain ⟨s', hcall, hiff, -⟩ := rights_call hbooted.tabled
    (show (0x1000 : BitVec 32) < 0xFFC00000 by decide) (havailable 0x1000) 0x5000 true true
  have hrights := hall _ _ s₀ s₀ s' 0x5000 0x1000 true true hboot .refl (by decide)
    (havailable 0x1000) hcall
  have huser := hiff.mp hrights rfl t ⟨true, false⟩ hbooted.slot_zero
  exact absurd huser (by decide)

end AuriOS
