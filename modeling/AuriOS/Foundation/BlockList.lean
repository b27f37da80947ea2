import Mathlib

/-!
# Doubly linked lists of blocks in memory

A block is a header of four words followed by its payload.  The header holds the size of the
payload, a flag that tells whether the block is free, and the addresses of the next and of the
previous block; address 0 ends the list.  Memory is any function `w` from addresses to words, and
`val` the number a word stands for.

* `Linked val w p bs q`: the blocks `bs` are linked in both directions, between `p` and `q`.
* `Placed lo bs hi`: they lie in `[lo, hi)` in increasing order and do not overlap.
* `Separated bs`: no two adjacent blocks are both free.

`Linked.splice` replaces a part of a list, and from it follow the edits an allocator makes:
`Linked.setFree`, `Linked.cut`, `Linked.merge` and `Linked.extend`.
-/

namespace BlockList

/-- A block: a header at `addr` and `size` bytes behind it. -/
structure Block where
  addr : ℕ
  size : ℕ
  free : Bool
  deriving DecidableEq

/-- Where the payload begins. -/
def Block.payload (b : Block) : ℕ := b.addr + 16

/-- Where the block ends. -/
def Block.stop (b : Block) : ℕ := b.addr + 16 + b.size

/-- The block that results when `x` absorbs its successor `y`. -/
def Block.absorb (x y : Block) : Block := { x with size := x.size + (16 + y.size) }

/-- The block that becomes of the end of `b` when its payload is cut down to `size` bytes. -/
def Block.remainder (b : Block) (size : ℕ) : Block where
  addr := b.addr + 16 + size
  size := b.size - size - 16
  free := true

section Linked

variable {V : Type} (val : V → ℕ)

/-- The header of a block in memory. -/
structure Header (w : ℕ → V) (b : Block) (prev next : ℕ) : Prop where
  size_eq : val (w b.addr) = b.size
  free_iff : val (w (b.addr + 4)) ≠ 0 ↔ b.free = true
  next_eq : val (w (b.addr + 8)) = next
  prev_eq : val (w (b.addr + 12)) = prev

/-- The address of the first block, or `q` if there is none. -/
def firstAddr : List Block → ℕ → ℕ
  | [], q => q
  | b :: _, _ => b.addr

/-- The address of the last block, or `p` if there is none. -/
def lastAddr : ℕ → List Block → ℕ
  | p, [] => p
  | _, b :: bs => lastAddr b.addr bs

/-- The blocks are linked in both directions, between `p` and `q`. -/
def Linked (w : ℕ → V) : ℕ → List Block → ℕ → Prop
  | _, [], _ => True
  | p, b :: bs, q => Header val w b p (firstAddr bs q) ∧ Linked w b.addr bs q

/-- The memory `w'` agrees with `w` on the header of a block. -/
def SameHeader (w w' : ℕ → V) (b : Block) : Prop :=
  ∀ o < 16, o % 4 = 0 → w' (b.addr + o) = w (b.addr + o)

variable {val} {w w' : ℕ → V} {p q : ℕ} {l m u r bs : List Block} {b : Block}

/-- The first address of two lists in sequence: the second list's stands in when the first is
empty. -/
theorem firstAddr_append : firstAddr (l ++ r) q = firstAddr l (firstAddr r q) := by
  cases l <;> rfl

/-- The last address of two lists in sequence: the second list continues from the first one's. -/
theorem lastAddr_append : lastAddr p (l ++ r) = lastAddr (lastAddr p l) r := by
  induction l generalizing p with
  | nil => rfl
  | cons b l ih => exact ih

/-- Two lists are linked in sequence exactly when each is, with the links meeting between them. -/
theorem linked_append :
    Linked val w p (l ++ r) q ↔
      Linked val w p l (firstAddr r q) ∧ Linked val w (lastAddr p l) r q := by
  induction l generalizing p with
  | nil => exact (and_iff_right trivial).symm
  | cons b l ih =>
    rw [List.cons_append, Linked, Linked, lastAddr, ih, firstAddr_append, and_assoc]

/-- A header depends only on its own four words. -/
theorem Header.congr {prev next : ℕ} (h : Header val w b prev next) (hw : SameHeader w w' b) :
    Header val w' b prev next := by
  have h0 := hw 0 (by omega) rfl
  rw [Nat.add_zero] at h0
  refine ⟨?_, ?_, ?_, ?_⟩
  · rw [h0]
    exact h.size_eq
  · rw [hw 4 (by omega) rfl]
    exact h.free_iff
  · rw [hw 8 (by omega) rfl]
    exact h.next_eq
  · rw [hw 12 (by omega) rfl]
    exact h.prev_eq

/-- A linked list survives every change that leaves its headers alone. -/
theorem Linked.congr (h : Linked val w p bs q) (hw : ∀ b ∈ bs, SameHeader w w' b) :
    Linked val w' p bs q := by
  induction bs generalizing p with
  | nil => trivial
  | cons b bs ih =>
    refine ⟨h.1.congr (hw b List.mem_cons_self), ih h.2 fun c hc => ?_⟩
    exact hw c (List.mem_cons_of_mem _ hc)

/-- The header of a block of the list. -/
theorem Linked.header (h : Linked val w p (l ++ b :: r) q) :
    Header val w b (lastAddr p l) (firstAddr r q) :=
  (linked_append.mp h).2.1

/-- A block is what its header says. -/
theorem Header.unique {c : Block} {prev prev' next next' : ℕ} (h : Header val w b prev next)
    (h' : Header val w c prev' next') (haddr : b.addr = c.addr) : b = c ∧ next = next' := by
  have hsize := h'.size_eq
  have hfree := h'.free_iff
  have hnext := h'.next_eq
  rw [← haddr] at hsize hfree hnext
  refine ⟨?_, h.next_eq.symm.trans hnext⟩
  rcases b with ⟨a, n, f⟩
  rcases c with ⟨a', n', f'⟩
  rw [Block.mk.injEq]
  exact ⟨haddr, h.size_eq.symm.trans hsize, Bool.eq_iff_iff.mpr (h.free_iff.symm.trans hfree)⟩

/-- The list from an address on is determined by the memory. -/
theorem Linked.unique {p' : ℕ} {cs : List Block} (h : Linked val w p bs 0)
    (h' : Linked val w p' cs 0) (hfirst : firstAddr bs 0 = firstAddr cs 0)
    (hbs : ∀ b ∈ bs, b.addr ≠ 0) (hcs : ∀ c ∈ cs, c.addr ≠ 0) : bs = cs := by
  induction bs generalizing p p' cs with
  | nil =>
    cases cs with
    | nil => rfl
    | cons c cs => exact absurd hfirst.symm (hcs c List.mem_cons_self)
  | cons b bs ih =>
    cases cs with
    | nil => exact absurd hfirst (hbs b List.mem_cons_self)
    | cons c cs =>
      obtain ⟨rfl, hnext⟩ := h.1.unique h'.1 hfirst
      rw [ih h.2 h'.2 hnext (fun x hx => hbs x (List.mem_cons_of_mem _ hx))
        fun x hx => hcs x (List.mem_cons_of_mem _ hx)]

/-- The first block of a linked list has the list's own predecessor in its `prev` word. -/
theorem Linked.prev_of_head (h : Linked val w p bs q) (hb : b ∈ bs.head?) :
    val (w (b.addr + 12)) = p := by
  cases bs with
  | nil => simp at hb
  | cons c bs =>
    obtain rfl := Option.some.inj hb
    exact h.1.prev_eq

/-- The first block gets another predecessor. -/
theorem Linked.setFirst {p' : ℕ} (h : Linked val w p r q)
    (hfirst : ∀ c ∈ r.head?, val (w' (c.addr + 12)) = p' ∧
      ∀ o < 12, o % 4 = 0 → w' (c.addr + o) = w (c.addr + o))
    (hrest : ∀ c ∈ r.tail, SameHeader w w' c) : Linked val w' p' r q := by
  cases r with
  | nil => trivial
  | cons c r =>
    obtain ⟨hc, hr⟩ := h
    obtain ⟨hprev, hfields⟩ := hfirst c rfl
    have h0 := hfields 0 (by omega) rfl
    rw [Nat.add_zero] at h0
    refine ⟨⟨?_, ?_, ?_, hprev⟩, hr.congr hrest⟩
    · rw [h0]
      exact hc.size_eq
    · rw [hfields 4 (by omega) rfl]
      exact hc.free_iff
    · rw [hfields 8 (by omega) rfl]
      exact hc.next_eq

/-- A part of the list is replaced by another with the same first address. -/
theorem Linked.splice (h : Linked val w p (l ++ (m ++ r)) q)
    (haddr : firstAddr (u ++ r) q = firstAddr (m ++ r) q) (hl : ∀ b ∈ l, SameHeader w w' b)
    (hm : Linked val w' (lastAddr p l) u (firstAddr r q))
    (hfirst : ∀ c ∈ r.head?, val (w' (c.addr + 12)) = lastAddr (lastAddr p l) u ∧
      ∀ o < 12, o % 4 = 0 → w' (c.addr + o) = w (c.addr + o))
    (hrest : ∀ c ∈ r.tail, SameHeader w w' c) :
    Linked val w' p (l ++ (u ++ r)) q := by
  obtain ⟨hleft, hright⟩ := linked_append.mp h
  refine linked_append.mpr ⟨?_, linked_append.mpr ⟨hm, ?_⟩⟩
  · rw [haddr]
    exact hleft.congr hl
  · exact (linked_append.mp hright).2.setFirst hfirst hrest

end Linked

/-! ### Position -/

section Placed

/-- The blocks lie between `lo` and `hi`, in increasing order and without overlap. -/
def Placed (lo : ℕ) : List Block → ℕ → Prop
  | [], hi => lo ≤ hi
  | b :: bs, hi => lo ≤ b.addr ∧ Placed b.stop bs hi

variable {lo hi m : ℕ} {l r bs : List Block} {b : Block}

/-- A placement does not end before it begins. -/
theorem Placed.le (h : Placed lo bs hi) : lo ≤ hi := by
  induction bs generalizing lo with
  | nil => exact h
  | cons b bs ih =>
    have hrest := ih h.2
    have hb := h.1
    rw [Block.stop] at hrest
    omega

/-- A placement stays one when its upper end is raised. -/
theorem Placed.mono {hi' : ℕ} (h : Placed lo bs hi) (hle : hi ≤ hi') : Placed lo bs hi' := by
  induction bs generalizing lo with
  | nil => exact le_trans h hle
  | cons b bs ih => exact ⟨h.1, ih h.2⟩

/-- A list of blocks falls into a part up to a block and a part from it on. -/
theorem placed_append_cons :
    Placed lo (l ++ b :: r) hi ↔ Placed lo l b.addr ∧ Placed b.stop r hi := by
  induction l generalizing lo with
  | nil => exact Iff.rfl
  | cons c l ih => rw [List.cons_append, Placed, Placed, ih, and_assoc]

/-- Every block of a placed list lies between the two ends. -/
theorem Placed.mem (h : Placed lo bs hi) (hb : b ∈ bs) : lo ≤ b.addr ∧ b.stop ≤ hi := by
  obtain ⟨l, r, rfl⟩ := List.append_of_mem hb
  obtain ⟨hl, hr⟩ := placed_append_cons.mp h
  exact ⟨hl.le, hr.le⟩

/-- Two blocks of a list are the same, or one ends before the other begins. -/
theorem Placed.apart_of_mem {c : Block} (h : Placed lo bs hi) (hb : b ∈ bs) (hc : c ∈ bs) :
    b = c ∨ b.stop ≤ c.addr ∨ c.stop ≤ b.addr := by
  obtain ⟨l, r, rfl⟩ := List.append_of_mem hb
  obtain ⟨hl, hr⟩ := placed_append_cons.mp h
  rcases List.mem_append.mp hc with hc | hc
  · exact Or.inr (Or.inr (hl.mem hc).2)
  · rcases List.mem_cons.mp hc with rfl | hc
    · exact Or.inl rfl
    · exact Or.inr (Or.inl (hr.mem hc).1)

/-- There are no more blocks than headers fit. -/
theorem Placed.length_le (h : Placed lo bs hi) : lo + 16 * bs.length ≤ hi := by
  induction bs generalizing lo with
  | nil => exact h
  | cons b bs ih =>
    have hrest := ih h.2
    have hb := h.1
    rw [Block.stop] at hrest
    rw [List.length_cons]
    omega

/-- A placed list starts nowhere or at or above its lower end. -/
theorem Placed.firstAddr_cases (h : Placed lo bs hi) :
    firstAddr bs 0 = 0 ∨ lo ≤ firstAddr bs 0 := by
  cases bs with
  | nil => exact Or.inl rfl
  | cons b bs => exact Or.inr h.1

/-- The head of a list stands at its first address. -/
theorem firstAddr_of_mem_head? {q : ℕ} (hb : b ∈ bs.head?) : firstAddr bs q = b.addr := by
  cases bs with
  | nil => simp at hb
  | cons c bs => exact congrArg Block.addr (Option.some.inj hb)

/-- Every later block of a placed list starts at least one header above the first. -/
theorem Placed.tail {q : ℕ} (h : Placed lo bs hi) (hb : b ∈ bs.tail) :
    firstAddr bs q + 16 ≤ b.addr := by
  cases bs with
  | nil => simp at hb
  | cons c bs =>
    have := (h.2.mem hb).1
    rw [Block.stop] at this
    rw [firstAddr]
    omega

end Placed

/-! ### Separation -/

section Separated

/-- Not two adjacent free blocks. -/
def Apart (b c : Block) : Prop := ¬ (b.free = true ∧ c.free = true ∧ b.stop = c.addr)

/-- No two adjacent blocks are both free. -/
def Separated (bs : List Block) : Prop := bs.IsChain Apart

variable {l r : List Block} {b c : Block}

/-- A used block is apart from whatever follows it. -/
theorem apart_of_used (h : b.free = false) (c : Block) : Apart b c := fun hc => by
  rw [h] at hc
  exact absurd hc.1 (by simp)

/-- Every block is apart from a used block after it. -/
theorem apart_used (h : c.free = false) (b : Block) : Apart b c := fun hc => by
  rw [h] at hc
  exact absurd hc.2.1 (by simp)

/-- A list is separated exactly when both sides of a block are and it is apart from its
neighbours. -/
theorem separated_append_cons :
    Separated (l ++ b :: r) ↔ Separated l ∧ (∀ x ∈ l.getLast?, Apart x b) ∧
      (∀ y ∈ r.head?, Apart b y) ∧ Separated r := by
  rw [Separated, List.isChain_append, List.isChain_cons]
  constructor
  · rintro ⟨hl, ⟨hhead, hr⟩, hlast⟩
    exact ⟨hl, fun x hx => hlast x hx b rfl, hhead, hr⟩
  · rintro ⟨hl, hlast, hhead, hr⟩
    refine ⟨hl, ⟨hhead, hr⟩, fun x hx y hy => ?_⟩
    rw [← Option.some.inj hy]
    exact hlast x hx

/-- The blocks fill the space between `lo` and `hi`. -/
def Tiled (lo : ℕ) : List Block → ℕ → Prop
  | [], hi => lo = hi
  | b :: bs, hi => b.addr = lo ∧ Tiled b.stop bs hi

/-- A list tiles a range exactly when the blocks before and after one tile what it leaves. -/
theorem tiled_append_cons {lo hi : ℕ} :
    Tiled lo (l ++ b :: r) hi ↔ Tiled lo l b.addr ∧ Tiled b.stop r hi := by
  induction l generalizing lo with
  | nil => exact and_congr_left fun _ => eq_comm
  | cons c l ih => rw [List.cons_append, Tiled, Tiled, ih, and_assoc]

/-- Free blocks that fill the space and are separated are a single block. -/
theorem Tiled.eq_singleton {lo hi : ℕ} (h : Tiled lo (b :: r) hi) (hs : Separated (b :: r))
    (hfree : ∀ x ∈ b :: r, x.free = true) : r = [] ∧ b.addr = lo ∧ b.stop = hi := by
  obtain ⟨hlo, hrest⟩ := h
  cases r with
  | nil => exact ⟨rfl, hlo, hrest⟩
  | cons c r =>
    refine absurd ⟨?_, ?_, hrest.1.symm⟩ (List.isChain_cons.mp hs |>.1 c rfl)
    · exact hfree b List.mem_cons_self
    · exact hfree c (List.mem_cons_of_mem _ List.mem_cons_self)

end Separated

/-! ### Joining free blocks -/

section Join

/-- A block joined with the next one, if that is free and adjacent. -/
def joinRight (b : Block) : List Block → Block × List Block
  | [] => (b, [])
  | c :: r => if c.free = true ∧ b.stop = c.addr then (b.absorb c, r) else (b, c :: r)

/-- A block joined with the previous one, if that is free and adjacent. -/
def joinLeft (l : List Block) (b : Block) (r : List Block) : List Block :=
  match l.getLast? with
  | some x =>
      if x.free = true ∧ x.stop = b.addr then l.dropLast ++ x.absorb b :: r else l ++ b :: r
  | none => l ++ b :: r

/-- The list after a block is freed. -/
def freed (l : List Block) (b : Block) (r : List Block) : List Block :=
  joinLeft l (joinRight { b with free := true } r).1 (joinRight { b with free := true } r).2

/-- The blocks in use. -/
def usedBlocks (bs : List Block) : List Block := bs.filter fun b => !b.free

variable {l r : List Block} {b c x : Block}

/-- The merge to the right takes an adjoining free block, or changes nothing. -/
theorem joinRight_cases (b : Block) (r : List Block) :
    (∃ c r', r = c :: r' ∧ c.free = true ∧ b.stop = c.addr ∧ joinRight b r = (b.absorb c, r')) ∨
      ((∀ c ∈ r.head?, c.free = true → b.stop ≠ c.addr) ∧ joinRight b r = (b, r)) := by
  cases r with
  | nil => exact Or.inr ⟨by simp, rfl⟩
  | cons c r =>
    by_cases h : c.free = true ∧ b.stop = c.addr
    · exact Or.inl ⟨c, r, rfl, h.1, h.2, if_pos h⟩
    · refine Or.inr ⟨fun d hd hfree hadj => h ?_, if_neg h⟩
      obtain rfl := Option.some.inj hd
      exact ⟨hfree, hadj⟩

/-- The merge to the left is taken up by an adjoining free block, or changes nothing. -/
theorem joinLeft_cases (l : List Block) (b : Block) (r : List Block) :
    (∃ l' x, l = l' ++ [x] ∧ x.free = true ∧ x.stop = b.addr ∧
        joinLeft l b r = l' ++ x.absorb b :: r) ∨
      ((∀ x ∈ l.getLast?, x.free = true → x.stop ≠ b.addr) ∧ joinLeft l b r = l ++ b :: r) := by
  rcases List.eq_nil_or_concat l with rfl | ⟨l', x, rfl⟩
  · exact Or.inr ⟨by simp, rfl⟩
  · rw [joinLeft, List.concat_eq_append, List.getLast?_concat, List.dropLast_concat]
    dsimp only
    by_cases h : x.free = true ∧ x.stop = b.addr
    · exact Or.inl ⟨l', x, rfl, h.1, h.2, if_pos h⟩
    · refine Or.inr ⟨fun d hd hfree hadj => h ?_, if_neg h⟩
      obtain rfl := Option.some.inj hd
      exact ⟨hfree, hadj⟩

/-- A block that absorbs its right neighbour ends where that neighbour ended. -/
theorem absorb_stop (h : b.stop = c.addr) : (b.absorb c).stop = c.stop := by
  simp only [Block.absorb, Block.stop] at h ⊢
  omega

/-- The merge to the right keeps the block's address and state. -/
theorem joinRight_addr (b : Block) (r : List Block) :
    (joinRight b r).1.addr = b.addr ∧ (joinRight b r).1.free = b.free := by
  rcases joinRight_cases b r with ⟨c, r', -, -, -, h⟩ | ⟨-, h⟩ <;> rw [h] <;> exact ⟨rfl, rfl⟩

/-- The merge to the right leaves no block that was not there before. -/
theorem mem_joinRight (h : x ∈ (joinRight b r).2) : x ∈ r := by
  rcases joinRight_cases b r with ⟨c, r', rfl, -, -, heq⟩ | ⟨-, heq⟩ <;> rw [heq] at h
  · exact List.mem_cons_of_mem _ h
  · exact h

/-- A free block that was joined with its successor is apart from the next one. -/
theorem separated_joinRight (hr : Separated r) :
    (∀ y ∈ (joinRight b r).2.head?, Apart (joinRight b r).1 y) ∧ Separated (joinRight b r).2 := by
  rcases joinRight_cases b r with ⟨c, r', rfl, hfree, hadj, h⟩ | ⟨hstay, h⟩ <;> rw [h]
  · obtain ⟨hhead, hr'⟩ := List.isChain_cons.mp hr
    refine ⟨fun y hy hc => hhead y hy ⟨hfree, hc.2.1, ?_⟩, hr'⟩
    rw [← absorb_stop hadj]
    exact hc.2.2
  · exact ⟨fun y hy hc => hstay y hy hc.2.1 hc.2.2, hr⟩

/-- After the merge to the left the whole list is separated. -/
theorem separated_joinLeft (hl : Separated l) (hhead : ∀ y ∈ r.head?, Apart b y)
    (hfree : b.free = true) (hr : Separated r) : Separated (joinLeft l b r) := by
  rcases joinLeft_cases l b r with ⟨l', x, rfl, hxfree, hadj, h⟩ | ⟨hstay, h⟩ <;> rw [h]
  · obtain ⟨hl', hlast, -, -⟩ := separated_append_cons.mp hl
    refine separated_append_cons.mpr ⟨hl', fun y hy hc => hlast y hy ⟨hc.1, hxfree, hc.2.2⟩, ?_, hr⟩
    intro y hy hc
    refine hhead y hy ⟨hfree, hc.2.1, ?_⟩
    rw [← absorb_stop hadj]
    exact hc.2.2
  · exact separated_append_cons.mpr ⟨hl, fun x hx hc => hstay x hx hc.1 hc.2.2, hhead, hr⟩

/-- **Freeing a block keeps the free blocks separated.** -/
theorem separated_freed (h : Separated (l ++ b :: r)) : Separated (freed l b r) := by
  obtain ⟨hl, -, -, hr⟩ := separated_append_cons.mp h
  obtain ⟨hhead, hr'⟩ := separated_joinRight (b := { b with free := true }) hr
  exact separated_joinLeft hl hhead (joinRight_addr _ _).2 hr'

/-- The used blocks of a list, taken apart at one block. -/
theorem usedBlocks_append_cons :
    usedBlocks (l ++ b :: r) = usedBlocks l ++ (if b.free then [] else [b]) ++ usedBlocks r := by
  rw [usedBlocks, List.filter_append, List.filter_cons]
  cases b.free <;> simp [usedBlocks]

/-- A free block is not among the used ones. -/
theorem usedBlocks_append_free (hfree : b.free = true) :
    usedBlocks (l ++ b :: r) = usedBlocks l ++ usedBlocks r := by
  rw [usedBlocks_append_cons, if_pos hfree, List.append_nil]

/-- A used block is among the used ones, at its place. -/
theorem usedBlocks_append_used (hused : b.free = false) :
    usedBlocks (l ++ b :: r) = usedBlocks l ++ b :: usedBlocks r := by
  rw [usedBlocks_append_cons, hused, if_neg (by simp), List.append_assoc, List.singleton_append]

/-- Absorbing a neighbour changes the used blocks only at the absorbing block. -/
theorem usedBlocks_absorb :
    usedBlocks (l ++ b.absorb c :: r) = usedBlocks l ++ (if b.free then [] else [b.absorb c]) ++
      usedBlocks r :=
  usedBlocks_append_cons

/-- Freeing a block leaves the other blocks in use. -/
theorem usedBlocks_freed : usedBlocks (freed l b r) = usedBlocks l ++ usedBlocks r := by
  have hright : (joinRight { b with free := true } r).1.free = true ∧
      usedBlocks (joinRight { b with free := true } r).2 = usedBlocks r := by
    refine ⟨(joinRight_addr _ _).2, ?_⟩
    rcases joinRight_cases { b with free := true } r with
      ⟨c, r', rfl, hfree, -, h⟩ | ⟨-, h⟩ <;> rw [h]
    rw [usedBlocks, usedBlocks, List.filter_cons_of_neg (by simp [hfree])]
  obtain ⟨hfree, hused⟩ := hright
  rw [freed]
  rcases joinLeft_cases l (joinRight { b with free := true } r).1
    (joinRight { b with free := true } r).2 with ⟨l', x, rfl, hxfree, -, h⟩ | ⟨-, h⟩ <;> rw [h]
  · rw [usedBlocks_absorb, hused, if_pos hxfree, usedBlocks_append_cons, if_pos hxfree]
    simp [usedBlocks]
  · rw [usedBlocks_append_cons, hused, if_pos hfree, List.append_nil]

/-- Releasing a block leaves a list with at least one block. -/
theorem freed_ne_nil : freed l b r ≠ [] := by
  rw [freed]
  rcases joinLeft_cases l (joinRight { b with free := true } r).1
    (joinRight { b with free := true } r).2 with ⟨l', x, -, -, -, h⟩ | ⟨-, h⟩ <;> rw [h] <;> simp

/-- Absorbing the neighbour keeps the tiling. -/
theorem tiled_absorb {lo hi : ℕ} (h : Tiled lo (l ++ b :: c :: r) hi) :
    Tiled lo (l ++ b.absorb c :: r) hi := by
  obtain ⟨hl, hadj, hr⟩ := tiled_append_cons.mp h
  refine tiled_append_cons.mpr ⟨hl, ?_⟩
  rw [absorb_stop hadj.symm]
  exact hr

/-- Freeing a block leaves no gap. -/
theorem tiled_freed {lo hi : ℕ} (hall : Tiled lo (l ++ b :: r) hi) :
    Tiled lo (freed l b r) hi := by
  obtain ⟨hl, hr⟩ := tiled_append_cons.mp hall
  have hset : Tiled lo (l ++ { b with free := true } :: r) hi := tiled_append_cons.mpr ⟨hl, hr⟩
  have hright : Tiled lo (l ++ (joinRight { b with free := true } r).1 ::
      (joinRight { b with free := true } r).2) hi := by
    rcases joinRight_cases { b with free := true } r with ⟨c, r', rfl, -, -, h⟩ | ⟨-, h⟩ <;> rw [h]
    · exact tiled_absorb hset
    · exact hset
  rw [freed]
  rcases joinLeft_cases l (joinRight { b with free := true } r).1
    (joinRight { b with free := true } r).2 with ⟨l', x, rfl, -, -, h⟩ | ⟨-, h⟩ <;> rw [h]
  · rw [List.append_assoc] at hright
    exact tiled_absorb hright
  · exact hright

end Join

/-! ### Edits -/

section Edits

variable {V : Type}

/-- Write a header. -/
def writeHeader (w : ℕ → V) (a : ℕ) (size free next prev : V) : ℕ → V :=
  Function.update (Function.update (Function.update (Function.update w a size) (a + 4) free)
    (a + 8) next) (a + 12) prev

/-- Set the previous-pointer of the block at `n`, if there is one. -/
def relink (w : ℕ → V) (n : ℕ) (v : V) : ℕ → V :=
  if n = 0 then w else Function.update w (n + 12) v

/-- Writing the next block's `prev` word changes no other word. -/
theorem relink_of_ne {w : ℕ → V} {n a : ℕ} {v : V} (h : n ≠ 0 → a ≠ n + 12) :
    relink w n v a = w a := by
  rw [relink]
  split
  · rfl
  · next hn => exact Function.update_of_ne (h hn) _ _

/-- The next block's `prev` word holds the value written to it. -/
theorem relink_self {w : ℕ → V} {n : ℕ} {v : V} (h : n ≠ 0) : relink w n v (n + 12) = v := by
  rw [relink, if_neg h, Function.update_self]

variable {val : V → ℕ} {w : ℕ → V} {p q lo hi : ℕ} {l r : List Block} {b c n : Block}

/-- What the position of a block says about the other headers. -/
structure Around (l : List Block) (b : Block) (r : List Block) : Prop where
  left : ∀ x ∈ l, x.addr + 16 ≤ b.addr
  first : firstAddr r 0 = 0 ∨ b.stop ≤ firstAddr r 0
  rest : ∀ x ∈ r.tail, firstAddr r 0 + 16 ≤ x.addr
  right : ∀ x ∈ r, b.stop ≤ x.addr

/-- A block of a placed list has its neighbours on the two sides of it. -/
theorem Placed.around (hp : Placed lo (l ++ b :: r) hi) : Around l b r := by
  obtain ⟨hl, hr⟩ := placed_append_cons.mp hp
  refine ⟨fun x hx => ?_, hr.firstAddr_cases, fun x hx => hr.tail hx, fun x hx => (hr.mem hx).1⟩
  have := (hl.mem hx).2
  rw [Block.stop] at this
  omega

/-- The flag of a block is set. -/
theorem Linked.setFree (h : Linked val w p (l ++ b :: r) q) (hp : Placed lo (l ++ b :: r) hi)
    {v : V} {x : Bool} (hv : val v ≠ 0 ↔ x = true) :
    Linked val (Function.update w (b.addr + 4) v) p (l ++ { b with free := x } :: r) q := by
  have hb := h.header
  have hprev := (linked_append.mp h).2.2
  obtain ⟨hleft, -, -, hright⟩ := hp.around
  have hsame : ∀ x ∈ r, SameHeader w (Function.update w (b.addr + 4) v) x := by
    intro x hx o _ _
    have := hright x hx
    rw [Block.stop] at this
    rw [Function.update_of_ne (by omega)]
  have hheader : Header val (Function.update w (b.addr + 4) v) { b with free := x }
      (lastAddr p l) (firstAddr r q) := by
    constructor <;> dsimp only
    case size_eq =>
      rw [Function.update_of_ne (by omega)]
      exact hb.size_eq
    case free_iff =>
      rw [Function.update_self]
      exact hv
    case next_eq =>
      rw [Function.update_of_ne (by omega)]
      exact hb.next_eq
    case prev_eq =>
      rw [Function.update_of_ne (by omega)]
      exact hb.prev_eq
  refine Linked.splice (m := [b]) (u := [{ b with free := x }]) h rfl ?_ ⟨hheader, trivial⟩ ?_
    fun x hx => hsame x (List.mem_of_mem_tail hx)
  · intro x hx o _ _
    have := hleft x hx
    rw [Function.update_of_ne (by omega)]
  · intro c hc
    have hsame := hsame c (List.mem_of_mem_head? hc)
    refine ⟨?_, fun o ho => hsame o (by omega)⟩
    rw [hsame 12 (by omega) rfl]
    exact hprev.prev_of_head hc

/-- The end of a block becomes a block of its own. -/
theorem Linked.cut (h : Linked val w p (l ++ b :: r) 0) (hp : Placed lo (l ++ b :: r) hi)
    (hlo : 0 < lo) {size : ℕ} (hn : b.addr + 16 ≤ n.addr) (hn' : n.addr + 16 ≤ b.stop)
    (nSize nFree nPrev vn vSize : V) (hnSize : val nSize = n.size)
    (hnFree : val nFree ≠ 0 ↔ n.free = true) (hnPrev : val nPrev = b.addr)
    (hvn : val vn = n.addr) (hvSize : val vSize = size) :
    Linked val (Function.update (Function.update
        (relink (writeHeader w n.addr nSize nFree (w (b.addr + 8)) nPrev) (firstAddr r 0) vn)
        (b.addr + 8) vn) b.addr vSize)
      p (l ++ { b with size := size } :: n :: r) 0 := by
  have hb := h.header
  obtain ⟨hl, hr⟩ := placed_append_cons.mp hp
  have hba := hl.le
  obtain ⟨hleft, hfirst, hrest, hright⟩ := hp.around
  rw [Block.stop] at hfirst hn'
  have hbHeader : Header val (Function.update (Function.update
      (relink (writeHeader w n.addr nSize nFree (w (b.addr + 8)) nPrev) (firstAddr r 0) vn)
      (b.addr + 8) vn) b.addr vSize) { b with size := size } (lastAddr p l) n.addr := by
    constructor <;> dsimp only [writeHeader]
    case size_eq =>
      simp (disch := omega) only [Function.update_self]
      exact hvSize
    case free_iff =>
      simp (disch := omega) only [Function.update_of_ne, relink_of_ne]
      exact hb.free_iff
    case next_eq =>
      simp (disch := omega) only [Function.update_of_ne, Function.update_self]
      exact hvn
    case prev_eq =>
      simp (disch := omega) only [Function.update_of_ne, relink_of_ne]
      exact hb.prev_eq
  have hnHeader : Header val (Function.update (Function.update
      (relink (writeHeader w n.addr nSize nFree (w (b.addr + 8)) nPrev) (firstAddr r 0) vn)
      (b.addr + 8) vn) b.addr vSize) n b.addr (firstAddr r 0) := by
    constructor <;> dsimp only [writeHeader]
    case size_eq =>
      simp (disch := omega) only [Function.update_of_ne, Function.update_self, relink_of_ne]
      exact hnSize
    case free_iff =>
      simp (disch := omega) only [Function.update_of_ne, Function.update_self, relink_of_ne]
      exact hnFree
    case next_eq =>
      simp (disch := omega) only [Function.update_of_ne, Function.update_self, relink_of_ne]
      exact hb.next_eq
    case prev_eq =>
      simp (disch := omega) only [Function.update_of_ne, Function.update_self, relink_of_ne]
      exact hnPrev
  refine Linked.splice (m := [b]) (u := [{ b with size := size }, n]) h rfl ?_
    ⟨hbHeader, hnHeader, trivial⟩ ?_ ?_
  · intro x hx o _ _
    have := hleft x hx
    dsimp only [writeHeader]
    simp (disch := omega) only [Function.update_of_ne, relink_of_ne]
  · intro c hc
    have hca := hright c (List.mem_of_mem_head? hc)
    rw [Block.stop] at hca
    rw [firstAddr_of_mem_head? hc] at hfirst ⊢
    dsimp only [writeHeader]
    constructor
    · simp (disch := omega) only [Function.update_of_ne, relink_self]
      exact hvn
    · intro o ho _
      simp (disch := omega) only [Function.update_of_ne, relink_of_ne]
  · intro x hx o ho _
    have hxa := hrest x hx
    have hxb := hright x (List.mem_of_mem_tail hx)
    rw [Block.stop] at hxb
    dsimp only [writeHeader]
    simp (disch := omega) only [Function.update_of_ne, relink_of_ne]

/-- A block absorbs its successor. -/
theorem Linked.merge (h : Linked val w p (l ++ b :: c :: r) 0)
    (hp : Placed lo (l ++ b :: c :: r) hi) (hlo : 0 < lo) {vSize vNext vb : V}
    (hvSize : val vSize = b.size + (16 + c.size)) (hvNext : val vNext = firstAddr r 0)
    (hvb : val vb = b.addr) :
    Linked val (relink (Function.update (Function.update w b.addr vSize) (b.addr + 8) vNext)
      (firstAddr r 0) vb) p (l ++ b.absorb c :: r) 0 := by
  have hb := h.header
  obtain ⟨hl, hr⟩ := placed_append_cons.mp hp
  have hba := hl.le
  have hca := hr.1
  have hc := hr.2
  rw [Block.stop] at hca
  have hright : ∀ x ∈ r, c.stop ≤ x.addr := fun x hx => (hc.mem hx).1
  have hfirst := hc.firstAddr_cases
  rw [Block.stop] at hfirst hright
  have hheader : Header val (relink (Function.update (Function.update w b.addr vSize)
      (b.addr + 8) vNext) (firstAddr r 0) vb) (b.absorb c) (lastAddr p l) (firstAddr r 0) := by
    constructor <;> dsimp only [Block.absorb]
    case size_eq =>
      simp (disch := omega) only [Function.update_of_ne, Function.update_self, relink_of_ne]
      exact hvSize
    case free_iff =>
      simp (disch := omega) only [Function.update_of_ne, relink_of_ne]
      exact hb.free_iff
    case next_eq =>
      simp (disch := omega) only [Function.update_self, relink_of_ne]
      exact hvNext
    case prev_eq =>
      simp (disch := omega) only [Function.update_of_ne, relink_of_ne]
      exact hb.prev_eq
  refine Linked.splice (m := [b, c]) (u := [b.absorb c]) h rfl ?_ ⟨hheader, trivial⟩ ?_ ?_
  · intro x hx o _ _
    have := hp.around.left x hx
    simp (disch := omega) only [Function.update_of_ne, relink_of_ne]
  · intro d hd
    have hda := hright d (List.mem_of_mem_head? hd)
    rw [firstAddr_of_mem_head? hd] at hfirst ⊢
    constructor
    · simp (disch := omega) only [relink_self]
      exact hvb
    · intro o ho _
      simp (disch := omega) only [Function.update_of_ne, relink_of_ne]
  · intro x hx o ho _
    have hxa := hc.tail (q := 0) hx
    have hxb := hright x (List.mem_of_mem_tail hx)
    simp (disch := omega) only [Function.update_of_ne, relink_of_ne]

/-- A block is added at the end. -/
theorem Linked.extend (h : Linked val w p (l ++ [b]) 0) (hp : Placed lo (l ++ [b]) n.addr)
    (nSize nFree nNext nPrev vn vb : V) (hnSize : val nSize = n.size)
    (hnFree : val nFree ≠ 0 ↔ n.free = true) (hnNext : val nNext = 0) (hvn : val vn = n.addr)
    (hvb : val vb = b.addr) :
    Linked val (Function.update (Function.update (writeHeader w n.addr nSize nFree nNext nPrev)
      (b.addr + 8) vn) (n.addr + 12) vb) p (l ++ [b, n]) 0 := by
  have hb := h.header
  have hbn := (placed_append_cons.mp hp).2.le
  rw [Block.stop] at hbn
  have hbHeader : Header val (Function.update (Function.update
      (writeHeader w n.addr nSize nFree nNext nPrev) (b.addr + 8) vn) (n.addr + 12) vb) b
      (lastAddr p l) n.addr := by
    constructor <;> dsimp only [writeHeader]
    case size_eq =>
      simp (disch := omega) only [Function.update_of_ne]
      exact hb.size_eq
    case free_iff =>
      simp (disch := omega) only [Function.update_of_ne]
      exact hb.free_iff
    case next_eq =>
      simp (disch := omega) only [Function.update_of_ne, Function.update_self]
      exact hvn
    case prev_eq =>
      simp (disch := omega) only [Function.update_of_ne]
      exact hb.prev_eq
  have hnHeader : Header val (Function.update (Function.update
      (writeHeader w n.addr nSize nFree nNext nPrev) (b.addr + 8) vn) (n.addr + 12) vb) n
      b.addr 0 := by
    constructor <;> dsimp only [writeHeader]
    case size_eq =>
      simp (disch := omega) only [Function.update_of_ne, Function.update_self]
      exact hnSize
    case free_iff =>
      simp (disch := omega) only [Function.update_of_ne, Function.update_self]
      exact hnFree
    case next_eq =>
      simp (disch := omega) only [Function.update_of_ne, Function.update_self]
      exact hnNext
    case prev_eq =>
      simp (disch := omega) only [Function.update_self]
      exact hvb
  refine Linked.splice (m := [b]) (u := [b, n]) (r := []) h rfl ?_ ⟨hbHeader, hnHeader, trivial⟩
    (by simp) (by simp)
  intro x hx o ho _
  have := hp.around.left x hx
  dsimp only [writeHeader]
  simp (disch := omega) only [Function.update_of_ne]

end Edits

end BlockList
