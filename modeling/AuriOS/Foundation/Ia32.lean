import Mathlib

/-!
# Interrupt stubs of a 32-bit x86 processor

The part of IA-32 in which interrupt stubs are written: registers, segment registers, a byte memory
with little-endian words, the stack, and the instructions that save and restore a context.

* `OnStack m p ws`: the words `ws` lie in memory from `p` upwards;
* `pushAll_spec`: what a sequence of pushes leaves;
* `execAll` runs straight-line code, `run` code with jumps, calls and `iret`; `run_ops` evaluates a
  straight-line prefix;
* `enter` is the delivery of an interrupt through an interrupt gate without a change of privilege,
  and `Processor.iret` the return to the same privilege level.
-/

namespace IA32

/-- A word of the processor. -/
abbrev Word := BitVec 32

/-- Memory by bytes. -/
abbrev Mem := Word → BitVec 8

/-! ### Words in memory -/

/-- The word at an address, the lowest byte first. -/
def read32 (m : Mem) (p : Word) : Word := m (p + 3) ++ m (p + 2) ++ m (p + 1) ++ m p

/-- Memory with a word written to an address. -/
def write32 (m : Mem) (p v : Word) : Mem := fun a =>
  if a = p then v.extractLsb' 0 8
  else if a = p + 1 then v.extractLsb' 8 8
  else if a = p + 2 then v.extractLsb' 16 8
  else if a = p + 3 then v.extractLsb' 24 8
  else m a

section Words

variable {m m' : Mem} {p q v : Word}

/-- A word reads back as it was written. -/
theorem read32_write32_self : read32 (write32 m p v) p = v := by
  have h : ∀ k j : Word, k ≠ j → p + k ≠ p + j := fun k j hkj h => hkj (add_left_cancel h)
  have h0 : ∀ k : Word, k ≠ 0 → p + k ≠ p := fun k hk h => hk (add_eq_left.mp h)
  unfold read32 write32
  rw [if_neg (h0 3 (by decide)), if_neg (h 3 1 (by decide)), if_neg (h 3 2 (by decide)), if_pos rfl,
    if_neg (h0 2 (by decide)), if_neg (h 2 1 (by decide)), if_pos rfl, if_neg (h0 1 (by decide)),
    if_pos rfl, if_pos rfl]
  refine BitVec.eq_of_getLsbD_eq fun i hi => ?_
  simp only [BitVec.getLsbD_append, BitVec.getLsbD_extractLsb']
  grind

/-- Writing a word leaves the bytes outside it alone. -/
theorem write32_of_outside {a : Word} (ha : 4 ≤ (a - p).toNat) : write32 m p v a = m a := by
  have h : ∀ k : Word, k.toNat < 4 → a ≠ p + k := by
    rintro k hk rfl
    rw [BitVec.add_comm, BitVec.add_sub_cancel] at ha
    omega
  have h0 : a ≠ p := fun h0 => h 0 (by decide) (h0.trans (BitVec.add_zero p).symm)
  unfold write32
  rw [if_neg h0, if_neg (h 1 (by decide)), if_neg (h 2 (by decide)), if_neg (h 3 (by decide))]

/-- A word depends on its four bytes. -/
theorem read32_congr (h : ∀ a, (a - p).toNat < 4 → m' a = m a) : read32 m' p = read32 m p := by
  have hbyte : ∀ k : Word, k.toNat < 4 → m' (p + k) = m (p + k) := fun k hk => h _ (by
    rwa [BitVec.add_comm, BitVec.add_sub_cancel])
  unfold read32
  rw [hbyte 3 (by decide), hbyte 2 (by decide), hbyte 1 (by decide), h p (by simp)]

end Words

/-! ### Words on the stack -/

/-- The words `ws` lie in memory from `p` upwards. -/
def OnStack (m : Mem) : Word → List Word → Prop
  | _, [] => True
  | p, w :: ws => read32 m p = w ∧ OnStack m (p + 4) ws

section OnStack

variable {m m' : Mem} {p w : Word} {ws : List Word}

/-- The words depend on the bytes they take up. -/
theorem OnStack.congr (h : OnStack m p ws) (hlen : 4 * ws.length ≤ 2 ^ 32)
    (hm : ∀ a, (a - p).toNat < 4 * ws.length → m' a = m a) : OnStack m' p ws := by
  induction ws generalizing p with
  | nil => trivial
  | cons w ws ih =>
    rw [List.length_cons] at hlen hm
    refine ⟨?_, ih h.2 (by omega) fun a ha => hm a ?_⟩
    · rw [← h.1]
      exact read32_congr fun a ha => hm a (by omega)
    · bv_omega

/-- Each word of a stack stands at its own offset. -/
theorem OnStack.getElem (h : OnStack m p ws) {k : ℕ} (hk : k < ws.length) :
    read32 m (p + BitVec.ofNat 32 (4 * k)) = ws[k] := by
  induction ws generalizing p k with
  | nil => exact absurd hk (Nat.not_lt_zero k)
  | cons w ws ih =>
    cases k with
    | zero => exact (congrArg (read32 m) (BitVec.add_zero p)).trans h.1
    | succ k =>
      have hp : p + BitVec.ofNat 32 (4 * (k + 1)) = p + 4 + BitVec.ofNat 32 (4 * k) := by bv_omega
      rw [hp, List.getElem_cons_succ]
      exact ih h.2 (Nat.lt_of_succ_lt_succ hk)

/-- The upper words of a stack stand there by themselves. -/
theorem OnStack.left (ws : List Word) {vs : List Word} (h : OnStack m p (ws ++ vs)) :
    OnStack m p ws := by
  induction ws generalizing p with
  | nil => trivial
  | cons w ws ih => exact ⟨h.1, ih h.2⟩

/-- A word written below them leaves the words where they are. -/
theorem OnStack.push (h : OnStack m p ws) (hlen : 4 * ws.length + 4 ≤ 2 ^ 32) :
    OnStack (write32 m (p - 4) w) (p - 4) (w :: ws) := by
  refine ⟨read32_write32_self, ?_⟩
  rw [BitVec.sub_add_cancel]
  refine h.congr (by omega) fun a ha => write32_of_outside ?_
  bv_omega

end OnStack

/-! ### The state -/

/-- The general registers. -/
inductive Reg
  | eax | ecx | edx | ebx | esp | ebp | esi | edi
  deriving DecidableEq, Repr

/-- The segment registers. -/
inductive Seg
  | es | cs | ss | ds | fs | gs
  deriving DecidableEq, Repr

/-- The registers and the memory that a program sees. -/
@[ext] structure Processor where
  reg : Reg → Word
  seg : Seg → BitVec 16
  eip : Word
  eflags : Word
  mem : Mem

/-- Flag bits of `eflags`. -/
def trapFlag : ℕ := 8
def interruptFlag : ℕ := 9
def nestedTask : ℕ := 14
def resumeFlag : ℕ := 16
def virtualMode : ℕ := 17

namespace Processor

/-- The stack pointer. -/
def esp (s : Processor) : Word := s.reg .esp

/-- A general register is written. -/
def setReg (s : Processor) (r : Reg) (w : Word) : Processor :=
  { s with reg := Function.update s.reg r w }

/-- A segment register is written. -/
def setSeg (s : Processor) (g : Seg) (v : BitVec 16) : Processor :=
  { s with seg := Function.update s.seg g v }

/-- The word on top of the stack. -/
def top (s : Processor) : Word := read32 s.mem s.esp

/-- `push`. -/
def push (s : Processor) (w : Word) : Processor :=
  { s.setReg .esp (s.esp - 4) with mem := write32 s.mem (s.esp - 4) w }

/-- The stack pointer passes a word. -/
def skip (s : Processor) : Processor := s.setReg .esp (s.esp + 4)

/-- `pop` into a register. -/
def pop (s : Processor) (r : Reg) : Processor := s.skip.setReg r s.top

/-- The words are pushed one after the other. -/
def pushAll (s : Processor) (ws : List Word) : Processor := ws.foldl push s

/-- The words on top of the stack. -/
def Frame (s : Processor) (ws : List Word) : Prop := OnStack s.mem s.esp ws

/-- `pusha`: the value of the stack pointer that is pushed is the one from before. -/
def pusha (s : Processor) : Processor :=
  s.pushAll [s.reg .eax, s.reg .ecx, s.reg .edx, s.reg .ebx, s.esp, s.reg .ebp, s.reg .esi,
    s.reg .edi]

/-- `popa`: the stack pointer pushed by `pusha` is passed over. -/
def popa (s : Processor) : Processor :=
  (((((((s.pop .edi).pop .esi).pop .ebp).skip).pop .ebx).pop .edx).pop .ecx).pop .eax

/-- The low half of `eax` is replaced. -/
def setAx (s : Processor) (v : BitVec 16) : Processor :=
  s.setReg .eax ((s.reg .eax).extractLsb' 16 16 ++ v)

/-- The low half of `eax`. -/
def ax (s : Processor) : BitVec 16 := (s.reg .eax).setWidth 16

end Processor

/-- The flags after `add x, y`: carry, parity, auxiliary carry, zero, sign and overflow change. -/
def addFlags (x y flags : Word) : Word :=
  let sum := x + y
  let low := sum.setWidth 8
  let parity := (List.range 8).foldl (fun b i => b ^^ low.getLsbD i) true
  let set : ℕ → Bool → Word := fun i b => if b then BitVec.twoPow 32 i else 0
  (flags &&& ~~~0x8D5#32) |||
    ((set 0 (decide (2 ^ 32 ≤ x.toNat + y.toNat)) ||| set 2 parity |||
      set 4 (decide (16 ≤ x.toNat % 16 + y.toNat % 16)) ||| set 6 (decide (sum = 0)) |||
      set 7 sum.msb ||| set 11 (x.msb == y.msb && sum.msb != x.msb)) &&& 0x8D5#32)

/-- An addition changes only the six status flags. -/
theorem addFlags_getLsbD (x y flags : Word) {i : ℕ} (hi : (0x8D5#32).getLsbD i = false)
    (hlt : i < 32) : (addFlags x y flags).getLsbD i = flags.getLsbD i := by
  unfold addFlags
  simp only [BitVec.getLsbD_or, BitVec.getLsbD_and, BitVec.getLsbD_not, hi, hlt, Bool.and_false,
    Bool.or_false, decide_true, Bool.not_false, Bool.and_true]

/-! ### Instructions -/

/-- Instructions without a transfer of control. -/
inductive Op
  | pushImm (w : Word)
  | push (r : Reg)
  | pop (r : Reg)
  | pusha
  | popa
  | movAxSeg (g : Seg)
  | movAxImm (v : BitVec 16)
  | movSegAx (g : Seg)
  | addEsp (w : Word)
  deriving DecidableEq, Repr

/-- Code with labels `L` and called functions `F`. -/
inductive Instr (L F : Type)
  | op (i : Op)
  | jmp (l : L)
  | call (f : F)
  | iret
  deriving DecidableEq, Repr

/-- What one instruction does. -/
def Op.exec : Op → Processor → Processor
  | pushImm w, s => s.push w
  | push r, s => s.push (s.reg r)
  | pop r, s => s.pop r
  | pusha, s => s.pusha
  | popa, s => s.popa
  | movAxSeg g, s => s.setAx (s.seg g)
  | movAxImm v, s => s.setAx v
  | movSegAx g, s => s.setSeg g s.ax
  | addEsp w, s => { s.setReg .esp (s.esp + w) with eflags := addFlags s.esp w s.eflags }

/-- What a list of instructions does. -/
def execAll (ops : List Op) (s : Processor) : Processor := ops.foldl (fun s i => i.exec s) s

/-- `iret` to the same privilege level.  A nested task, a return to virtual mode and a return to
another privilege level are not modelled. -/
def Processor.iret (s : Processor) : Option Processor :=
  let cs := (read32 s.mem (s.esp + 4)).setWidth 16
  let eflags := read32 s.mem (s.esp + 4 + 4)
  if s.eflags.getLsbD nestedTask || eflags.getLsbD virtualMode ||
      cs.setWidth 2 != (s.seg .cs).setWidth 2 then none
  else some { s.setReg .esp (s.esp + 4 + 4 + 4) with
    eip := s.top, seg := Function.update s.seg .cs cs, eflags := eflags }

/-- Code, the addresses of its labels, and the address behind each call. -/
structure Code (L F : Type) where
  block : L → List (Instr L F)
  address : L → Word
  after : F → Word

section Run

variable {L F : Type} (C : Code L F) (callee : F → Processor → Option Processor)

/-- A run of at most so many instructions, up to an `iret`.  A called function acts on the state it
is entered with, its return address on top of the stack. -/
def run : ℕ → List (Instr L F) → Processor → Option Processor
  | 0, _, _ => none
  | _ + 1, [], _ => none
  | n + 1, .op i :: rest, s => run n rest (i.exec s)
  | n + 1, .jmp l :: _, s => run n (C.block l) s
  | n + 1, .call f :: rest, s => (callee f (s.push (C.after f))).bind (run n rest)
  | _ + 1, .iret :: _, s => s.iret

/-- A straight-line prefix. -/
theorem run_ops (n : ℕ) (ops : List Op) (rest : List (Instr L F)) (s : Processor) :
    run C callee (n + ops.length) (ops.map .op ++ rest) s =
      run C callee n rest (execAll ops s) := by
  induction ops generalizing s with
  | nil => rfl
  | cons i ops ih => exact ih (i.exec s)

end Run

/-! ### Pushes -/

namespace Processor

variable {s : Processor} {w : Word} {ws : List Word}

/-- A push moves the stack pointer down one word. -/
@[simp] theorem push_esp (s : Processor) (w : Word) : (s.push w).esp = s.esp - 4 := rfl

/-- Skipping a word moves the stack pointer up one word. -/
@[simp] theorem skip_esp (s : Processor) : s.skip.esp = s.esp + 4 := rfl

/-- A push leaves every register but the stack pointer. -/
theorem push_reg {r : Reg} (hr : r ≠ .esp) : (s.push w).reg r = s.reg r :=
  Function.update_of_ne hr _ _

/-- What a sequence of pushes leaves: the words, the last one on top; everything at and above the
old stack pointer, and everything that is not on the stack. -/
structure Pushed (ws : List Word) (s s' : Processor) : Prop where
  esp : s'.esp = s.esp - BitVec.ofNat 32 (4 * ws.length)
  reg : ∀ r, r ≠ Reg.esp → s'.reg r = s.reg r
  seg : s'.seg = s.seg
  eip : s'.eip = s.eip
  eflags : s'.eflags = s.eflags
  frame : ∀ old, s.Frame old → 4 * (ws.length + old.length) ≤ 2 ^ 32 →
    s'.Frame (ws.reverse ++ old)
  outside : 4 * ws.length ≤ 2 ^ 32 → ∀ a, 4 * ws.length ≤ (a - s'.esp).toNat → s'.mem a = s.mem a

/-- Pushing a list of words puts them on the stack and changes nothing else. -/
theorem pushAll_spec (s : Processor) (ws : List Word) : Pushed ws s (s.pushAll ws) := by
  induction ws generalizing s with
  | nil => exact ⟨(BitVec.sub_zero _).symm, fun _ _ => rfl, rfl, rfl, rfl, fun _ h _ => h,
      fun _ _ _ => rfl⟩
  | cons w ws ih =>
    have h := ih (s.push w)
    refine ⟨?_, fun r hr => (h.reg r hr).trans (push_reg hr), h.seg, h.eip, h.eflags, ?_, ?_⟩
    · rw [pushAll, List.foldl_cons, ← pushAll, h.esp, push_esp, List.length_cons, Nat.mul_add,
        BitVec.ofNat_add, Nat.mul_one]
      bv_omega
    · intro old hold hlen
      rw [List.length_cons] at hlen
      rw [List.reverse_cons, List.append_assoc]
      exact h.frame (w :: old) (OnStack.push hold (by omega)) (by rw [List.length_cons]; omega)
    · intro hlen a ha
      rw [List.length_cons] at hlen ha
      rw [show s.pushAll (w :: ws) = (s.push w).pushAll ws from rfl] at ha ⊢
      refine (h.outside (by omega) a (by omega)).trans (write32_of_outside ?_)
      rw [h.esp, push_esp] at ha
      bv_omega

/-- What pushes write depends on the memory and the stack pointer only. -/
theorem pushAll_congr {t : Processor} (hmem : t.mem = s.mem) (hesp : t.esp = s.esp)
    (ws : List Word) :
    (t.pushAll ws).mem = (s.pushAll ws).mem ∧ (t.pushAll ws).esp = (s.pushAll ws).esp := by
  induction ws generalizing s t with
  | nil => exact ⟨hmem, hesp⟩
  | cons w ws ih =>
    refine ih ?_ (congrArg (· - (4 : Word)) hesp)
    change write32 t.mem (t.esp - 4) w = write32 s.mem (s.esp - 4) w
    rw [hmem, hesp]

/-- Two lists of words are pushed one after the other. -/
theorem pushAll_append (s : Processor) (ws vs : List Word) :
    s.pushAll (ws ++ vs) = (s.pushAll ws).pushAll vs := List.foldl_append

end Processor

/-! ### Delivery -/

/-- An interrupt gate: the handler's code segment and entry point. -/
structure InterruptGate where
  selector : BitVec 16
  offset : Word
  deriving DecidableEq

/-- The flags in the handler: interrupts, single steps and nested tasks are off. -/
def handlerFlags (flags : Word) : Word :=
  flags &&& ~~~(BitVec.twoPow 32 trapFlag ||| BitVec.twoPow 32 interruptFlag |||
    BitVec.twoPow 32 nestedTask ||| BitVec.twoPow 32 resumeFlag ||| BitVec.twoPow 32 virtualMode)

/-- Delivery through an interrupt gate without a change of privilege.  Some exceptions come with an
error code. -/
def enter (g : InterruptGate) (code : Option Word) (s : Processor) : Processor :=
  let t := s.pushAll ([s.eflags, (s.seg .cs).setWidth 32, s.eip] ++ code.toList)
  { t with
    eip := g.offset, seg := Function.update t.seg .cs g.selector, eflags := handlerFlags t.eflags }

/-- Entering through an interrupt gate puts the saved state and the error code on the stack. -/
theorem enter_frame {g : InterruptGate} {code : Option Word} {s : Processor} {old : List Word}
    (h : s.Frame old) (hlen : 4 * old.length + 16 ≤ 2 ^ 32) :
    (enter g code s).Frame
      (code.toList ++ [s.eip, (s.seg .cs).setWidth 32, s.eflags] ++ old) := by
  have hpushed := (Processor.pushAll_spec s
    ([s.eflags, (s.seg .cs).setWidth 32, s.eip] ++ code.toList)).frame old h
  have hrev : ([s.eflags, (s.seg .cs).setWidth 32, s.eip] ++ code.toList).reverse =
      code.toList ++ [s.eip, (s.seg .cs).setWidth 32, s.eflags] := by cases code <;> rfl
  rw [hrev] at hpushed
  exact hpushed (by cases code <;> simp <;> omega)

/-- A handler is entered with interrupts off. -/
theorem handlerFlags_interruptFlag (flags : Word) :
    (handlerFlags flags).getLsbD interruptFlag = false := by
  simp [handlerFlags, interruptFlag, trapFlag, nestedTask, resumeFlag, virtualMode]

/-- A handler is entered with the nested task flag clear. -/
theorem handlerFlags_nestedTask (flags : Word) :
    (handlerFlags flags).getLsbD nestedTask = false := by
  simp [handlerFlags, interruptFlag, trapFlag, nestedTask, resumeFlag, virtualMode]

end IA32
