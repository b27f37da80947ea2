import Mathlib

/-!
# Programs over a state that may stop

A program over a state `σ` that may stop with a reason `ε` is an element of
`StateT σ (Except ε) α`.  This module collects the rules by which such programs are taken
apart and put together:

* `bind_eq_ok` inverts a completed sequential composition, `bind_of_ok` evaluates one whose
  first half is known;
* `foldlM_simulates` and `foldlM_invariant` are the induction over a sequence of steps;
* `forLoop` is a counted loop, with the rule `forLoop_induction` for its invariants, and
  `run_invariant` is that for runs of any number of steps;
* `Yields P x` says that whatever a program without a state returns satisfies `P`;
* `Respects R x` says that every completed run of `x` relates its final state to its initial
  state by the preorder `R`; it is closed under composition, so that what a single store may
  change bounds what a whole routine may change;
* `Performs V R v x a v'` is total: on every state that `V` shows as `v`, the program `x` returns
  `a` in a state that `V` shows as `v'`.  Its rules evaluate a program on the view alone.
-/

namespace Program

variable {σ ε α β : Type}

/-- A composition completes exactly when both halves do. -/
theorem bind_eq_ok {x : StateT σ (Except ε) α} {f : α → StateT σ (Except ε) β} {s s' : σ}
    {b : β} : (x >>= f) s = .ok (b, s') ↔ ∃ a t, x s = .ok (a, t) ∧ f a t = .ok (b, s') := by
  change Except.bind (x s) (fun p => f p.1 p.2) = .ok (b, s') ↔ _
  cases x s with
  | error e => simp [Except.bind]
  | ok p => simp [Except.bind, Prod.ext_iff]

/-- A composition whose first half completes continues with the second half. -/
theorem bind_of_ok {x : StateT σ (Except ε) α} {f : α → StateT σ (Except ε) β} {s t : σ} {a : α}
    (h : x s = .ok (a, t)) : (x >>= f) s = f a t := by
  change Except.bind (x s) (fun p => f p.1 p.2) = _
  rw [h, Except.bind]

/-- A composition depends on its first half through what that does to the state. -/
theorem bind_of_eq {x y : StateT σ (Except ε) α} (f : α → StateT σ (Except ε) β) {s t : σ}
    (h : x s = y t) : (x >>= f) s = (y >>= f) t := by
  change Except.bind (x s) (fun p => f p.1 p.2) = Except.bind (y t) (fun p => f p.1 p.2)
  rw [h]

/-- What is left of a composition once the result of its first half is known. -/
theorem rest_of_bind {x : StateT σ (Except ε) α} {f : α → StateT σ (Except ε) β} {s t : σ} {a : α}
    {r : Except ε (β × σ)} (hx : x s = .ok (a, t)) (h : (x >>= f) s = r) : f a t = r :=
  (bind_of_ok hx).symm.trans h

/-- A composition whose first half stops, stops. -/
theorem bind_of_error {x : StateT σ (Except ε) α} {f : α → StateT σ (Except ε) β} {s : σ} {e : ε}
    (h : x s = .error e) : (x >>= f) s = .error e := by
  change Except.bind (x s) (fun p => f p.1 p.2) = _
  rw [h, Except.bind]

/-- A pure program returns its value in the state it found. -/
@[simp] theorem pure_apply (a : α) (s : σ) :
    (pure a : StateT σ (Except ε) α) s = .ok (a, s) := rfl

/-- A throwing program ends in its error. -/
@[simp] theorem throw_apply (e : ε) (s : σ) :
    (throw e : StateT σ (Except ε) α) s = .error e := rfl

/-- Reading the state hands it to the rest of the program. -/
@[simp] theorem get_bind_apply (f : σ → StateT σ (Except ε) β) (s : σ) :
    (get >>= f) s = f s s := rfl

/-- Setting the state forgets the old one. -/
@[simp] theorem set_apply (t s : σ) :
    (set t : StateT σ (Except ε) PUnit) s = .ok (⟨⟩, t) := rfl

/-- A modification returns the modified state. -/
@[simp] theorem modify_apply (g : σ → σ) (s : σ) :
    (modify g : StateT σ (Except ε) PUnit) s = .ok (⟨⟩, g s) := rfl

/-- A modification hands the modified state to the rest of the program. -/
@[simp] theorem modify_bind_apply (g : σ → σ) (f : PUnit → StateT σ (Except ε) β) (s : σ) :
    ((modify g : StateT σ (Except ε) PUnit) >>= f) s = f ⟨⟩ (g s) := rfl

/-- A pure value goes to the rest of the program in the same state. -/
@[simp] theorem pure_bind_apply (a : α) (f : α → StateT σ (Except ε) β) (s : σ) :
    ((pure a : StateT σ (Except ε) α) >>= f) s = f a s := rfl

/-- Nothing runs after an error. -/
@[simp] theorem throw_bind_apply (e : ε) (f : α → StateT σ (Except ε) β) (s : σ) :
    ((throw e : StateT σ (Except ε) α) >>= f) s = .error e := rfl

/-! ### Programs without a state -/

/-- A result goes to the rest of the computation. -/
@[simp] theorem ok_bind (a : α) (f : α → Except ε β) : (Except.ok a >>= f) = f a := rfl

/-- Nothing is computed after an error. -/
@[simp] theorem error_bind (e : ε) (f : α → Except ε β) :
    (Except.error e >>= f) = .error e := rfl

/-- A composition without a state completes exactly when both halves do. -/
theorem except_bind_eq_ok {x : Except ε α} {f : α → Except ε β} {b : β} :
    (x >>= f) = .ok b ↔ ∃ a, x = .ok a ∧ f a = .ok b := by
  cases x with
  | error e => simp
  | ok a => simp

/-- If the program returns, then with a value that satisfies `P`. -/
def Yields (P : α → Prop) (x : Except ε α) : Prop := ∀ a, x = .ok a → P a

/-- A result that satisfies the condition is one that yields it. -/
theorem Yields.ok {P : α → Prop} {a : α} (h : P a) : Yields P (.ok a : Except ε α) := by
  rintro _ ⟨⟩
  exact h

/-- A computation yields what its last part yields, whatever comes before. -/
theorem Yields.bind {P : β → Prop} {x : Except ε α} {f : α → Except ε β}
    (hf : ∀ a, Yields P (f a)) : Yields P (x >>= f) := by
  intro b hb
  obtain ⟨a, -, hb⟩ := except_bind_eq_ok.mp hb
  exact hf a b hb

/-! ### Runs -/

/-- What holds in the beginning and is kept by every step holds wherever a run leads. -/
theorem run_invariant {step : σ → σ → Prop} (I : σ → Prop) {s s' : σ}
    (hrun : Relation.ReflTransGen step s s') (hstart : I s)
    (hstep : ∀ {t t'}, I t → step t t' → I t') : I s' := by
  induction hrun with
  | refl => exact hstart
  | tail _ hlast ih => exact hstep ih hlast

/-! ### Sequences of steps that may stop -/

section Steps

variable {τ : Type} {step : σ → α → Except ε σ}

/-- If every step completes and does to a related state what `ideal` does, so does every sequence
of steps. -/
theorem foldlM_simulates (ideal : τ → α → τ) (R : σ → τ → Prop)
    (hstep : ∀ s t a, R s t → ∃ s', step s a = .ok s' ∧ R s' (ideal t a)) (as : List α) {s : σ}
    {t : τ} (h : R s t) : ∃ s', as.foldlM step s = .ok s' ∧ R s' (as.foldl ideal t) := by
  induction as generalizing s t with
  | nil => exact ⟨s, rfl, h⟩
  | cons a as ih =>
    obtain ⟨s₁, hs₁, h₁⟩ := hstep s t a h
    obtain ⟨s', hs', h'⟩ := ih h₁
    exact ⟨s', by rw [List.foldlM_cons, hs₁, ok_bind, hs'], h'⟩

/-- If every step completes and keeps an invariant, so does every sequence of steps. -/
theorem foldlM_invariant (I : σ → Prop) (hstep : ∀ s a, I s → ∃ s', step s a = .ok s' ∧ I s')
    (as : List α) {s : σ} (h : I s) : ∃ s', as.foldlM step s = .ok s' ∧ I s' :=
  foldlM_simulates (fun (t : Unit) _ => t) (fun s _ => I s) (fun s _ a => hstep s a) as (t := ()) h

end Steps

/-! ### Counted loops -/

/-- `for (i = lo; i < lo + n; i++) s = body(i, s)`. -/
def forLoop (body : ℕ → σ → σ) : ℕ → ℕ → σ → σ
  | _, 0, s => s
  | lo, n + 1, s => forLoop body (lo + 1) n (body lo s)

/-- The counting loop is the fold over the numbers it counts. -/
theorem forLoop_eq_foldl (body : ℕ → σ → σ) (lo n : ℕ) (s : σ) :
    forLoop body lo n s = (List.range' lo n).foldl (fun s i => body i s) s := by
  induction n generalizing lo s with
  | zero => rfl
  | succ n ih => rw [forLoop, ih, List.range'_succ, List.foldl_cons]

/-- An invariant of a counted loop, indexed by the iterations done. -/
theorem forLoop_induction {body : ℕ → σ → σ} {lo n : ℕ} {s : σ} (I : ℕ → σ → Prop) (h0 : I 0 s)
    (hstep : ∀ k t, k < n → I k t → I (k + 1) (body (lo + k) t)) : I n (forLoop body lo n s) := by
  induction n generalizing lo s I with
  | zero => exact h0
  | succ n ih =>
    refine ih (fun k t => I (k + 1) t) (hstep 0 s (Nat.succ_pos n) h0) fun k t hk ht => ?_
    rw [show lo + 1 + k = lo + (k + 1) by omega]
    exact hstep (k + 1) t (Nat.succ_lt_succ hk) ht

/-! ### Bounding what a routine may change -/

/-- Every completed run of `x` relates its initial state to its final state by `R`. -/
def Respects (R : σ → σ → Prop) (x : StateT σ (Except ε) α) : Prop :=
  ∀ s a s', x s = .ok (a, s') → R s s'

namespace Respects

variable {R : σ → σ → Prop}

/-- A pure program respects every reflexive relation. -/
theorem pure [Std.Refl R] (a : α) : Respects R (pure a : StateT σ (Except ε) α) := by
  intro s b s' h
  obtain ⟨-, rfl⟩ : a = b ∧ s = s' := by simpa using h
  exact Std.Refl.refl s

/-- A program that only fails respects every relation. -/
theorem throw (e : ε) : Respects R (throw e : StateT σ (Except ε) α) := by
  intro s a s' h
  simp at h

/-- A modification respects the relation its function stays in. -/
theorem modify {g : σ → σ} (hg : ∀ s, R s (g s)) :
    Respects R (modify g : StateT σ (Except ε) PUnit) := by
  intro s a s' h
  obtain rfl : g s = s' := by simpa using h
  exact hg s

/-- Programs in sequence respect a transitive relation that each of them respects. -/
theorem bind [IsTrans σ R] {x : StateT σ (Except ε) α} {f : α → StateT σ (Except ε) β}
    (hx : Respects R x) (hf : ∀ a, Respects R (f a)) : Respects R (x >>= f) := by
  intro s b s' h
  obtain ⟨a, t, hxt, hft⟩ := bind_eq_ok.mp h
  exact IsTrans.trans _ _ _ (hx s a t hxt) (hf a t b s' hft)

/-- Reading the state changes nothing. -/
theorem get_bind {f : σ → StateT σ (Except ε) β} (hf : ∀ t, Respects R (f t)) :
    Respects R (get >>= f) :=
  fun s b s' h => hf s s b s' h

/-- A branch respects the relation that both sides respect. -/
theorem ite {c : Prop} [Decidable c] {x y : StateT σ (Except ε) α} (hx : Respects R x)
    (hy : Respects R y) : Respects R (if c then x else y) := by
  split
  · exact hx
  · exact hy

end Respects

/-! ### Programs seen through a view -/

section Performs

variable {ν : Type}

/-- On every state that `V` shows as `v`, the program `x` returns `a` in a state that `V` shows
as `v'`; what it changes is bounded by `R`. -/
def Performs (V : σ → ν → Prop) (R : σ → σ → Prop) (v : ν) (x : StateT σ (Except ε) α) (a : α)
    (v' : ν) : Prop :=
  ∀ s, V s v → ∃ s', x s = .ok (a, s') ∧ V s' v' ∧ R s s'

namespace Performs

variable {V : σ → ν → Prop} {R : σ → σ → Prop} {v v₁ v' : ν}

/-- A pure program performs the step that changes nothing. -/
theorem pure [Std.Refl R] (a : α) :
    Performs V R v (pure a : StateT σ (Except ε) α) a v :=
  fun s hs => ⟨s, rfl, hs, Std.Refl.refl s⟩

/-- Programs in sequence perform their steps in sequence. -/
theorem bind [IsTrans σ R] {x : StateT σ (Except ε) α} {f : α → StateT σ (Except ε) β} {a : α}
    {b : β} (hx : Performs V R v x a v₁) (hf : Performs V R v₁ (f a) b v') :
    Performs V R v (x >>= f) b v' := by
  intro s hs
  obtain ⟨t, hxt, hvt, hst⟩ := hx s hs
  obtain ⟨s', hfs, hvs, hts⟩ := hf t hvt
  exact ⟨s', (bind_of_ok hxt).trans hfs, hvs, IsTrans.trans _ _ _ hst hts⟩

/-- What a program reads off the whole state it must find in every state with the same view. -/
theorem get_bind {f : σ → StateT σ (Except ε) β} {b : β}
    (hf : ∀ t, V t v → Performs V R v (f t) b v') : Performs V R v (get >>= f) b v' :=
  fun s hs => hf s hs s hs

/-- A branch performs its first side where the condition holds. -/
theorem ite_pos {c : Prop} [Decidable c] {x y : StateT σ (Except ε) α} {a : α} (hc : c)
    (hx : Performs V R v x a v') : Performs V R v (if c then x else y) a v' := by
  rw [if_pos hc]
  exact hx

/-- A branch performs its second side where the condition fails. -/
theorem ite_neg {c : Prop} [Decidable c] {x y : StateT σ (Except ε) α} {a : α} (hc : ¬ c)
    (hy : Performs V R v y a v') : Performs V R v (if c then x else y) a v' := by
  rw [if_neg hc]
  exact hy

end Performs

end Performs

end Program
