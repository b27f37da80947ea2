import AuriOS.Mm.Pmm

/-!
# Runs of the frame allocator

A run interleaves `pmm_alloc_frame` with `pmm_free_frame` on frames that were handed out and not
given back since.  `PmmInv` ties the bitmap to the frames held: the used frames are those used at
the start together with the held ones, and no frame is held twice.  It is preserved by every step
(`pmmInv_step`), hence holds in every run, and from it the allocator is seen to be the abstract
one: it takes the least free frame and fails only when there is none.
-/

namespace AuriOS

open Program WordBitmap

/-- A bitmap and the frames handed out and not freed since. -/
structure PmmState where
  bitmap : Bitmap
  held : List (BitVec 32)

/-- One call of the allocator. -/
inductive PmmStep : PmmState → PmmState → Prop
  | alloc {bm bm' : Bitmap} {held : List (BitVec 32)} {a : BitVec 32} :
      pmmAllocFrame bm = .ok (a, bm') →
      PmmStep ⟨bm, held⟩ ⟨bm', if a = 0 then held else a :: held⟩
  | free {bm bm' : Bitmap} {held : List (BitVec 32)} {a : BitVec 32} :
      a ∈ held → pmmFreeFrame a bm = .ok ((), bm') → PmmStep ⟨bm, held⟩ ⟨bm', held.erase a⟩

/-- The held frames are the ones marked used since the start. -/
structure PmmInv (bm₀ : Bitmap) (st : PmmState) : Prop where
  length_eq : st.bitmap.bytes.length = bm₀.bytes.length
  held_nodup : st.held.Nodup
  /-- Every held frame is a tracked frame that was free at the start. -/
  held_frame : ∀ a ∈ st.held, ∃ f < bm₀.frames, a = frameAddr f ∧ bm₀.used f = false
  used_iff : ∀ f < bm₀.frames,
    st.bitmap.used f = true ↔ bm₀.used f = true ∨ frameAddr f ∈ st.held

/-- The invariant holds before the first call. -/
theorem pmmInv_start (bm₀ : Bitmap) : PmmInv bm₀ ⟨bm₀, []⟩ where
  length_eq := rfl
  held_nodup := List.nodup_nil
  held_frame := by simp
  used_iff := by simp

section Step

variable {bm₀ bm bm' : Bitmap} {held : List (BitVec 32)} {a : BitVec 32}

/-- The invariant says how many frames are tracked. -/
theorem PmmInv.frames_eq {st : PmmState} (hinv : PmmInv bm₀ st) :
    st.bitmap.frames = bm₀.frames := by
  simp [Bitmap.frames, hinv.length_eq]

/-- The frame the allocator takes was free at the start and is not held. -/
theorem pmmInv_alloc (hinv : PmmInv bm₀ ⟨bm, held⟩) (h : pmmAllocFrame bm = .ok (a, bm'))
    (h₀ : bm₀.used 0 = true) : PmmInv bm₀ ⟨bm', if a = 0 then held else a :: held⟩ := by
  have hframes : bm.frames = bm₀.frames := hinv.frames_eq
  rcases pmmAllocFrame_eq bm with ⟨-, hnone⟩ | ⟨f, bm₁, hf, hsome, hmark⟩
  · rw [hnone] at h
    obtain ⟨rfl, rfl⟩ : 0 = a ∧ bm = bm' := by simpa using h
    simpa using hinv
  · rw [hsome] at h
    obtain ⟨rfl, rfl⟩ : frameAddr f = a ∧ bm₁ = bm' := by simpa using h
    obtain ⟨hclear, hlt, -⟩ := lowestClear_eq_some_iff.mp hf
    replace hlt : f < bm₀.frames := hframes ▸ hlt
    have hlt20 : f < 2 ^ 20 := by have := bm₀.frames_le; omega
    have hnot : ¬ (bm₀.used f = true ∨ frameAddr f ∈ held) := fun hused => by
      have : bm.used f = true := (hinv.used_iff f hlt).mpr hused
      exact absurd (this.symm.trans hclear) (by simp)
    rw [not_or] at hnot
    have hne : f ≠ 0 := by
      rintro rfl
      exact hnot.1 h₀
    rw [if_neg (frameAddr_ne_zero hlt20 hne)]
    refine ⟨hmark.length_eq.trans hinv.length_eq, ?_, ?_, ?_⟩
    · exact List.nodup_cons.mpr ⟨hnot.2, hinv.held_nodup⟩
    · intro b hb
      rcases List.mem_cons.mp hb with rfl | hb
      · exact ⟨f, hlt, rfl, Bool.eq_false_of_not_eq_true hnot.1⟩
      · exact hinv.held_frame b hb
    · intro g hg
      have hg20 : g < 2 ^ 20 := by have := bm₀.frames_le; omega
      rw [hmark.used_eq]
      by_cases hgf : g = f
      · simp [hgf]
      · have hrange : ¬ (f ≤ g ∧ g < f + 1) := by omega
        have haddr : frameAddr g ≠ frameAddr f := fun he => hgf (frameAddr_injective hg20 hlt20 he)
        rw [if_neg hrange, List.mem_cons]
        simpa [haddr] using hinv.used_iff g hg

/-- A held frame can be given back, which clears its bit alone. -/
theorem pmmFreeFrame_held (hinv : PmmInv bm₀ ⟨bm, held⟩) (ha : a ∈ held) :
    ∃ f bm₁, f < bm₀.frames ∧ a = frameAddr f ∧ bm₀.used f = false ∧
      pmmFreeFrame a bm = .ok ((), bm₁) ∧ Marked false f (f + 1) bm bm₁ := by
  obtain ⟨f, hf, rfl, hfree⟩ := hinv.held_frame a ha
  have hframes : bm.frames = bm₀.frames := hinv.frames_eq
  obtain ⟨bm₁, h, hm⟩ := markRegion_frame setsBit_and_not (hframes ▸ hf : f < bm.frames)
  exact ⟨f, bm₁, hf, rfl, hfree, h, hm⟩

/-- The invariant is kept when a frame in hand is given back. -/
theorem pmmInv_free (hinv : PmmInv bm₀ ⟨bm, held⟩) (ha : a ∈ held)
    (h : pmmFreeFrame a bm = .ok ((), bm')) : PmmInv bm₀ ⟨bm', held.erase a⟩ := by
  obtain ⟨f, bm₁, hf, rfl, hfree, h₁, hmark⟩ := pmmFreeFrame_held hinv ha
  rw [h₁] at h
  obtain rfl : bm₁ = bm' := by simpa using h
  have hf20 : f < 2 ^ 20 := by have := bm₀.frames_le; omega
  refine ⟨hmark.length_eq.trans hinv.length_eq, hinv.held_nodup.erase _, ?_, ?_⟩
  · intro b hb
    exact hinv.held_frame b (List.mem_of_mem_erase hb)
  · intro g hg
    have hg20 : g < 2 ^ 20 := by have := bm₀.frames_le; omega
    rw [hmark.used_eq, hinv.held_nodup.mem_erase_iff]
    by_cases hgf : g = f
    · simp [hgf, hfree]
    · have hrange : ¬ (f ≤ g ∧ g < f + 1) := by omega
      have haddr : frameAddr g ≠ frameAddr f := fun he => hgf (frameAddr_injective hg20 hf20 he)
      rw [if_neg hrange]
      simpa [haddr] using hinv.used_iff g hg

end Step

/-- Every call keeps the invariant. -/
theorem pmmInv_step {bm₀ : Bitmap} (h₀ : bm₀.used 0 = true) {st st' : PmmState}
    (hinv : PmmInv bm₀ st) (hstep : PmmStep st st') : PmmInv bm₀ st' := by
  cases hstep with
  | alloc h => exact pmmInv_alloc hinv h h₀
  | free ha h => exact pmmInv_free hinv ha h

/-- The invariant holds in every state of a run. -/
theorem pmmInv_run {bm₀ : Bitmap} (h₀ : bm₀.used 0 = true) {st : PmmState}
    (hrun : Relation.ReflTransGen PmmStep ⟨bm₀, []⟩ st) : PmmInv bm₀ st :=
  run_invariant (PmmInv bm₀) hrun (pmmInv_start bm₀) (pmmInv_step h₀)

/-- What the allocator guarantees in a state of a run started on `bm₀`. -/
structure AllocatorSound (bm₀ : Bitmap) (st : PmmState) : Prop where
  /-- On a bitmap with a clear bit the allocator does not trap, returns the frame the plain scan
  finds first and sets exactly its bit. -/
  alloc_some : ∀ f, lowestClear st.bitmap.bytes = some f → ∃ bm',
    pmmAllocFrame st.bitmap = .ok (frameAddr f, bm') ∧ frameAddr f ≠ 0 ∧
      Marked true f (f + 1) st.bitmap bm'
  /-- Where the plain scan finds nothing it returns 0 and changes nothing. -/
  alloc_none : lowestClear st.bitmap.bytes = none →
    pmmAllocFrame st.bitmap = .ok (0, st.bitmap)
  /-- It returns 0 exactly when every tracked frame is used. -/
  alloc_zero_iff : (∃ bm', pmmAllocFrame st.bitmap = .ok (0, bm')) ↔ st.bitmap.Full
  /-- Every held frame can be freed without a trap. -/
  free_ok : ∀ a ∈ st.held, ∃ bm', pmmFreeFrame a st.bitmap = .ok ((), bm')
  held_nodup : st.held.Nodup
  held_ne_zero : ∀ a ∈ st.held, a ≠ 0
  /-- The held frames are tracked frames. -/
  held_frame : ∀ a ∈ st.held, ∃ f < st.bitmap.frames, a = frameAddr f
  frames_eq : st.bitmap.frames = bm₀.frames
  used_iff : ∀ f < bm₀.frames,
    st.bitmap.used f = true ↔ bm₀.used f = true ∨ frameAddr f ∈ st.held

/-- **Runs of the allocator.** From a bitmap in which frame 0 is used, every run of allocations
and of frees of held frames keeps the allocator equal to the plain scan, free of traps, and the
held frames distinct, non-zero and exactly the used ones that were not used at the start. -/
theorem pmmRun_allocatorSound {bm₀ : Bitmap} (h₀ : bm₀.used 0 = true) {st : PmmState}
    (hrun : Relation.ReflTransGen PmmStep ⟨bm₀, []⟩ st) : AllocatorSound bm₀ st := by
  have hinv := pmmInv_run h₀ hrun
  have hzero : st.bitmap.used 0 = true := by
    by_cases hlt : 0 < bm₀.frames
    · exact (hinv.used_iff 0 hlt).mpr (Or.inl h₀)
    · exact Bitmap.used_of_frames_le (by rw [hinv.frames_eq]; omega)
  have hclear_ne : ∀ f, lowestClear st.bitmap.bytes = some f → frameAddr f ≠ 0 := by
    intro f hf
    obtain ⟨hclear, hlt, -⟩ := lowestClear_eq_some_iff.mp hf
    have hle : st.bitmap.frames ≤ 1048568 := st.bitmap.frames_le
    refine frameAddr_ne_zero (lt_of_lt_of_le hlt (hle.trans (by norm_num))) ?_
    rintro rfl
    exact absurd (hzero.symm.trans hclear) (by simp)
  refine
    { alloc_some := ?_, alloc_none := ?_, alloc_zero_iff := ?_, free_ok := ?_
      held_nodup := hinv.held_nodup, held_ne_zero := ?_, held_frame := ?_
      frames_eq := hinv.frames_eq, used_iff := hinv.used_iff }
  · intro f hf
    rcases pmmAllocFrame_eq st.bitmap with ⟨hnone, -⟩ | ⟨g, bm', hg, halloc, hmark⟩
    · rw [hf] at hnone
      exact absurd hnone (by simp)
    · obtain rfl : g = f := Option.some.inj (hg.symm.trans hf)
      exact ⟨bm', halloc, hclear_ne g hf, hmark⟩
  · intro hnone
    rcases pmmAllocFrame_eq st.bitmap with ⟨-, halloc⟩ | ⟨g, bm', hg, -, -⟩
    · exact halloc
    · rw [hg] at hnone
      exact absurd hnone (by simp)
  · rcases pmmAllocFrame_eq st.bitmap with ⟨hnone, halloc⟩ | ⟨g, bm', hg, halloc, -⟩
    · exact ⟨fun _ => lowestClear_eq_none_iff_full.mp hnone, fun _ => ⟨_, halloc⟩⟩
    · refine ⟨fun ⟨bm₁, h⟩ => ?_, fun hfull => ?_⟩
      · rw [halloc] at h
        exact absurd (Prod.mk.inj (Except.ok.inj h)).1 (hclear_ne g hg)
      · rw [lowestClear_eq_none_iff_full.mpr hfull] at hg
        exact absurd hg (by simp)
  · intro a ha
    obtain ⟨f, bm₁, -, -, -, h, -⟩ := pmmFreeFrame_held hinv ha
    exact ⟨bm₁, h⟩
  · intro a ha
    obtain ⟨f, hf, rfl, hfree⟩ := hinv.held_frame a ha
    refine frameAddr_ne_zero (by have := bm₀.frames_le; omega) ?_
    rintro rfl
    exact absurd (h₀.symm.trans hfree) (by simp)
  · intro a ha
    obtain ⟨f, hf, rfl, -⟩ := hinv.held_frame a ha
    exact ⟨f, by rwa [hinv.frames_eq], rfl⟩

/-- A run of one allocation on a bitmap of eight frames. -/
theorem pmmRun_allocatorSound_one :
    AllocatorSound ⟨[0x01#8], by decide⟩ ⟨⟨[0x03#8], by decide⟩, [0x1000#32]⟩ :=
  pmmRun_allocatorSound (by decide) (Relation.ReflTransGen.single
    (PmmStep.alloc (a := 0x1000#32) (by rfl)))

end AuriOS
