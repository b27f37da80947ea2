import AuriOS.Foundation.WrappingCounter
import AuriOS.Lib.Strings

/-!
# The timer

The tick counter of `timer.c` and the loop of `sleep`, which looks at the counter whenever an
interrupt woke the processor.

* `sleep_returnsAt_iff`: for any frequency, `sleep` returns at the first check at which the counter
  is far enough from where it started, modulo `2 ^ 32`;
* `sleep_iff`: at 1000 ticks a second this is the first check after `ms` ticks exactly if the
  product with the frequency does not overflow.
-/

namespace AuriOS

open WrappingCounter

/-- The static variables of `timer.c`. -/
structure Timer where
  tick : BitVec 32
  frequency : BitVec 32

/-- `timer_callback`. -/
def timerCallback (t : Timer) : Timer := { t with tick := t.tick + 1 }

/-- `timer_init`, with the bytes that go to the ports; `mask` is read from port `0x21`.  The
division by a zero frequency stops the kernel. -/
def timerInit (freq : BitVec 32) (mask : Byte) (t : Timer) :
    Option (Timer × List (BitVec 16 × Byte)) :=
  let t := { t with frequency := freq }
  if freq = 0 then none
  else
    let divisor := 1193180 / freq
    some (t, [(0x43, 0x36), (0x40, (divisor &&& 0xFF).setWidth 8),
      (0x40, ((divisor >>> 8) &&& 0xFF).setWidth 8), (0x21, mask &&& ~~~(0x01 : Byte))])

/-- The loop of `sleep` at check number `check`, for at most `fuel` checks.  `arrivals` says how
many timer interrupts come before each check; `hlt` may also be left for another interrupt. -/
def sleepLoop (arrivals : ℕ → ℕ) (start ticksToWait : BitVec 32) :
    ℕ → ℕ → Timer → Option (ℕ × Timer)
  | 0, _, _ => none
  | fuel + 1, check, t =>
      let t := timerCallback^[arrivals check] t
      if t.tick - start < ticksToWait then sleepLoop arrivals start ticksToWait fuel (check + 1) t
      else some (check, t)

/-- `sleep`: the check at which it returns, if it does within `fuel` checks. -/
def sleep (arrivals : ℕ → ℕ) (ms : BitVec 32) (fuel : ℕ) (t : Timer) : Option (ℕ × Timer) :=
  sleepLoop arrivals t.tick ((t.frequency * ms) / 1000) fuel 0 t

/-- Check `n` is the one at which `sleep` returns. -/
def ReturnsAt (arrivals : ℕ → ℕ) (ms : BitVec 32) (t : Timer) (n : ℕ) : Prop :=
  ∃ fuel t', sleep arrivals ms fuel t = some (n, t')

/-- Fewer than `2 ^ 31` interrupts between two checks, and not a whole round of the counter before
the first one. -/
structure Sparse (arrivals : ℕ → ℕ) : Prop where
  first : arrivals 0 < 2 ^ 32
  between : ∀ n, arrivals (n + 1) < 2 ^ 31

/-- `sleep` returns at the first check by which `ms` ticks have passed. -/
def SleepsExactly (t : Timer) (ms : BitVec 32) : Prop :=
  ∀ arrivals, Sparse arrivals → ∀ n,
    ReturnsAt arrivals ms t n ↔ IsLeast {n | ms.toNat ≤ elapsed arrivals n} n

section Sleep

variable {arrivals : ℕ → ℕ} {start ticksToWait ms : BitVec 32} {t t₀ t₁ : Timer} {n : ℕ}

/-- Each interrupt counts one tick. -/
theorem ticks_tick (k : ℕ) (t : Timer) :
    (timerCallback^[k] t).tick = t.tick + BitVec.ofNat 32 k := by
  induction k with
  | zero => exact (BitVec.add_zero t.tick).symm
  | succ k ih =>
    rw [Function.iterate_succ_apply', BitVec.ofNat_add, ← BitVec.add_assoc, ← ih]
    rfl

/-- The interrupts leave the frequency alone. -/
theorem ticks_frequency (k : ℕ) (t : Timer) :
    (timerCallback^[k] t).frequency = t.frequency := by
  induction k with
  | zero => rfl
  | succ k ih =>
    rw [Function.iterate_succ_apply']
    exact ih

/-- The counter, seen from where it started. -/
theorem tick_sub_start {k : ℕ} (ht : t.tick = start + BitVec.ofNat 32 k) :
    (t.tick - start).toNat = k % 2 ^ 32 := by
  rw [ht, BitVec.add_comm, BitVec.add_sub_cancel, BitVec.toNat_ofNat]

/-- The loop from check `check` on, by induction on the checks that it may still make. -/
theorem sleepLoop_iff {fuel check : ℕ}
    (ht : t.tick = start + BitVec.ofNat 32 (∑ i ∈ Finset.range check, arrivals i)) :
    (∃ t', sleepLoop arrivals start ticksToWait fuel check t = some (n, t')) ↔
      check ≤ n ∧ n < check + fuel ∧ ticksToWait.toNat ≤ elapsed arrivals n % 2 ^ 32 ∧
        ∀ k < n, check ≤ k → elapsed arrivals k % 2 ^ 32 < ticksToWait.toNat := by
  induction fuel generalizing check t with
  | zero =>
    refine iff_of_false (fun ⟨_, h⟩ => by cases h) ?_
    omega
  | succ fuel ih =>
    have ht' : (timerCallback^[arrivals check] t).tick =
        start + BitVec.ofNat 32 (elapsed arrivals check) := by
      rw [ticks_tick, ht, BitVec.add_assoc, ← BitVec.ofNat_add, elapsed, Finset.sum_range_succ]
    have hread := tick_sub_start ht'
    rw [sleepLoop]
    by_cases hwait : elapsed arrivals check % 2 ^ 32 < ticksToWait.toNat
    · rw [if_pos (by rw [BitVec.lt_def, hread]; exact hwait), ih ht']
      constructor
      · rintro ⟨hle, hlt, hreached, hbefore⟩
        refine ⟨by omega, by omega, hreached, fun k hk hck => ?_⟩
        rcases Nat.eq_or_lt_of_le hck with rfl | hck
        · exact hwait
        · exact hbefore k hk hck
      · rintro ⟨hle, hlt, hreached, hbefore⟩
        have hne : check ≠ n := by
          rintro rfl
          exact absurd hwait (Nat.not_lt_of_le hreached)
        exact ⟨by omega, by omega, hreached, fun k hk hck => hbefore k hk (by omega)⟩
    · rw [if_neg (by rw [BitVec.lt_def, hread]; exact hwait)]
      constructor
      · rintro ⟨t', hsome⟩
        obtain rfl : check = n := congrArg Prod.fst (Option.some.inj hsome)
        exact ⟨Nat.le_refl _, by omega, Nat.le_of_not_lt hwait, fun k hk hck => by omega⟩
      · rintro ⟨hle, -, -, hbefore⟩
        obtain rfl : check = n := by
          by_contra hne
          exact hwait (hbefore check (by omega) (Nat.le_refl _))
        exact ⟨_, rfl⟩

/-- Where `sleep` returns, whatever the frequency. -/
theorem sleep_returnsAt_iff (arrivals : ℕ → ℕ) (ms : BitVec 32) (t : Timer) (n : ℕ) :
    ReturnsAt arrivals ms t n ↔
      IsLeast {n | ((t.frequency * ms) / 1000).toNat ≤ elapsed arrivals n % 2 ^ 32} n := by
  have hstart : t.tick = t.tick + BitVec.ofNat 32 (∑ i ∈ Finset.range 0, arrivals i) :=
    (BitVec.add_zero t.tick).symm
  have hloop (fuel : ℕ) : (∃ t', sleepLoop arrivals t.tick ((t.frequency * ms) / 1000) fuel 0 t =
      some (n, t')) ↔ 0 ≤ n ∧ n < 0 + fuel ∧ _ := sleepLoop_iff hstart
  rw [isLeast_iff]
  simp only [Nat.not_le]
  constructor
  · rintro ⟨fuel, hreturns⟩
    obtain ⟨-, -, hreached, hbefore⟩ := (hloop fuel).mp hreturns
    exact ⟨hreached, fun k hk => hbefore k hk (Nat.zero_le k)⟩
  · rintro ⟨hreached, hbefore⟩
    exact ⟨n + 1, (hloop (n + 1)).mpr
      ⟨Nat.zero_le n, by omega, hreached, fun k hk _ => hbefore k hk⟩⟩

/-- The ticks to wait at 1000 ticks a second. -/
theorem ticksToWait_toNat (ms : BitVec 32) :
    ((1000 * ms) / 1000 : BitVec 32).toNat = 1000 * ms.toNat % 2 ^ 32 / 1000 := by
  rw [BitVec.toNat_udiv, BitVec.toNat_mul]
  rfl

/-- The product of the milliseconds wraps, so the wait is at most 4294967 ticks. -/
theorem ticksToWait_le (ms : BitVec 32) : ((1000 * ms) / 1000 : BitVec 32).toNat ≤ 4294967 := by
  have hlt : 1000 * ms.toNat % 2 ^ 32 < 2 ^ 32 := Nat.mod_lt _ (by decide)
  rw [ticksToWait_toNat]
  omega

/-- `timer_init` records the frequency it was given. -/
theorem timerInit_frequency {freq : BitVec 32} {mask : Byte} {writes : List (BitVec 16 × Byte)}
    (h : timerInit freq mask t₀ = some (t₁, writes)) : t₁.frequency = freq := by
  unfold timerInit at h
  split at h
  · cases h
  · obtain ⟨rfl, -⟩ := Prod.mk.inj (Option.some.inj h)
    rfl

/-- Up to `4294967` milliseconds, the wait is neither too short nor too long. -/
theorem sleepsExactly_of_le (hfreq : t.frequency = 1000) (hms : ms.toNat ≤ 4294967) :
    SleepsExactly t ms := by
  intro arrivals harrivals n
  have hwait : ((1000 * ms) / 1000 : BitVec 32).toNat = ms.toNat := by
    rw [ticksToWait_toNat, Nat.mod_eq_of_lt (by omega), Nat.mul_div_cancel_left _ (by decide)]
  have hkeeps : Keeps arrivals (2 ^ 32) ms.toNat := by
    refine ⟨harrivals.first, fun k => ?_⟩
    have hlt := harrivals.between k
    omega
  rw [sleep_returnsAt_iff, hfreq, hwait]
  exact isLeast_elapsed_mod_iff hkeeps

/-- The interrupts that end a wait at its first check. -/
theorem elapsed_single (k n : ℕ) : elapsed (fun n => if n = 0 then k else 0) n = k := by
  induction n with
  | zero => exact elapsed_zero _
  | succ n ih =>
    rw [elapsed_succ, ih]
    rfl

/-- Above, `sleep` may return before `ms` ticks have passed. -/
theorem not_sleepsExactly (hfreq : t.frequency = 1000) (hms : 4294967 < ms.toNat) :
    ¬ SleepsExactly t ms := by
  intro h
  have hle := ticksToWait_le ms
  generalize hwait : ((1000 * ms) / 1000 : BitVec 32).toNat = wait at hle
  have hsparse : Sparse fun n => if n = 0 then wait else 0 := by
    refine ⟨?_, fun n => ?_⟩
    · rw [if_pos rfl]
      omega
    · rw [if_neg (Nat.succ_ne_zero n)]
      decide
  have hreturns : ReturnsAt (fun n => if n = 0 then wait else 0) ms t 0 := by
    rw [sleep_returnsAt_iff, hfreq, hwait, isLeast_iff, elapsed_single]
    exact ⟨(Nat.mod_eq_of_lt (by omega)).ge, fun k hk => absurd hk (Nat.not_lt_zero k)⟩
  have hreached := ((h _ hsparse 0).mp hreturns).1
  rw [Set.mem_ofPred_eq, elapsed_single] at hreached
  omega

/-- After `timer_init(1000)`, whatever the counter holds by now: the waits up to `4294967`
milliseconds are exact, and no others. -/
theorem sleep_iff {mask : Byte} {writes : List (BitVec 16 × Byte)}
    (hinit : timerInit 1000 mask t₀ = some (t₁, writes)) (count : ℕ) (ms : BitVec 32) :
    SleepsExactly (timerCallback^[count] t₁) ms ↔ ms.toNat ≤ 4294967 := by
  have hfreq : (timerCallback^[count] t₁).frequency = 1000 :=
    (ticks_frequency count t₁).trans (timerInit_frequency hinit)
  constructor
  · intro h
    by_contra hlarge
    exact not_sleepsExactly hfreq (Nat.lt_of_not_le hlarge) h
  · exact sleepsExactly_of_le hfreq

/-- A sleep of two seconds at 1000 ticks a second, begun at tick 3. -/
theorem sleep_iff_two_seconds : SleepsExactly (timerCallback^[5] ⟨0xFFFFFFFE, 1000⟩) 2000 := by
  have hinit : timerInit 1000 0xFF ⟨0xFFFFFFFE, 0⟩ = some (⟨0xFFFFFFFE, 1000⟩, _) := rfl
  exact (sleep_iff hinit 5 2000).mpr (by decide)

/-- `1000 * 4294968` is `704` in 32 bits: there is nothing to wait for. -/
theorem sleep_returns_at_once :
    ¬ ∀ (mask : Byte) (t₀ t₁ : Timer) (writes : List (BitVec 16 × Byte)) (count : ℕ)
        (ms : BitVec 32),
      timerInit 1000 mask t₀ = some (t₁, writes) → SleepsExactly (timerCallback^[count] t₁) ms := by
  intro h
  have hexact : SleepsExactly ⟨0, 1000⟩ 4294968 := h 0xFF ⟨0, 0⟩ ⟨0, 1000⟩ _ 0 4294968 rfl
  have hsparse : Sparse fun _ => 0 := ⟨by decide, fun _ => by decide⟩
  have hreturns : ReturnsAt (fun _ => 0) 4294968 ⟨0, 1000⟩ 0 := ⟨1, ⟨0, 1000⟩, rfl⟩
  exact absurd ((hexact _ hsparse 0).mp hreturns).1 (by decide)

end Sleep

end AuriOS
