import AuriOS.Foundation.CopyOrder
import AuriOS.Lib.Strings

/-!
# Blocks of bytes

`memcpy` and `memmove` of `memory.c`, on the flat memory of a 32-bit machine.

* `memcpy_eq`, `memmoveDown_eq`: the two loops as copies in increasing and in decreasing order of
  the addresses;
* `memmove_moves`: however the blocks overlap, the bytes arrive as they were; the order in which
  `memcpy` goes is part of it.
-/

namespace AuriOS

open CopyOrder

/-- Memory as a function from addresses to bytes. -/
abbrev ByteMem := BitVec 32 → Byte

/-- `while (len--) *d++ = *s++`. -/
def memcpyLoop : ℕ → BitVec 32 → BitVec 32 → ByteMem → ByteMem
  | 0, _, _, m => m
  | len + 1, d, s, m => memcpyLoop len (d + 1) (s + 1) (Function.update m d (m s))

/-- `memcpy`. -/
def memcpy (dest src len : BitVec 32) (m : ByteMem) : BitVec 32 × ByteMem :=
  (dest, memcpyLoop len.toNat dest src m)

/-- `while (n--) *(--d) = *(--s)`. -/
def memmoveDown : ℕ → BitVec 32 → BitVec 32 → ByteMem → ByteMem
  | 0, _, _, m => m
  | n + 1, d, s, m => memmoveDown n (d - 1) (s - 1) (Function.update m (d - 1) (m (s - 1)))

/-- `memmove`. -/
def memmove (dest src n : BitVec 32) (m : ByteMem) : BitVec 32 × ByteMem :=
  if dest = src then (dest, m)
  else if dest < src then memcpy dest src n m
  else (dest, memmoveDown n.toNat (dest + n) (src + n) m)

/-- The `n` bytes from `src` on arrived at `dest`, and no other byte changed. -/
structure Moved (dest src n : BitVec 32) (m m' : ByteMem) : Prop where
  copied : ∀ i < n, m' (dest + i) = m (src + i)
  kept : ∀ a, ¬ (dest.toNat ≤ a.toNat ∧ a.toNat < dest.toNat + n.toNat) → m' a = m a

/-- The address `k` bytes on. -/
def byteAt (p : BitVec 32) (k : ℕ) : BitVec 32 := p + BitVec.ofNat 32 k

section Addresses

variable {p : BitVec 32} {k n : ℕ}

/-- The first byte is at the address itself. -/
theorem byteAt_zero (p : BitVec 32) : byteAt p 0 = p := BitVec.add_zero p

/-- A byte further on is reached from the next address. -/
theorem byteAt_succ (p : BitVec 32) (k : ℕ) : byteAt (p + 1) k = byteAt p (k + 1) := by
  unfold byteAt
  rw [BitVec.add_assoc, Nat.add_comm, BitVec.ofNat_add]
  rfl

/-- The address of a byte does not wrap inside the memory. -/
theorem byteAt_toNat (h : p.toNat + k < 2 ^ 32) : (byteAt p k).toNat = p.toNat + k := by
  unfold byteAt
  rw [BitVec.toNat_add, BitVec.toNat_ofNat, Nat.add_mod_mod, Nat.mod_eq_of_lt h]

/-- The distances to a byte add up. -/
theorem byteAt_byteAt (p : BitVec 32) (i j : ℕ) : byteAt (byteAt p i) j = byteAt p (i + j) := by
  unfold byteAt
  rw [BitVec.ofNat_add, BitVec.add_assoc]

/-- The bytes of the memory have distinct addresses. -/
theorem byteAt_inj {i j : ℕ} (hi : i < 2 ^ 32) (hj : j < 2 ^ 32) :
    byteAt p i = byteAt p j ↔ i = j := by
  refine ⟨fun h => ?_, fun h => h ▸ rfl⟩
  have hsame := congrArg BitVec.toNat (add_left_cancel h)
  rwa [BitVec.toNat_ofNat, BitVec.toNat_ofNat, Nat.mod_eq_of_lt hi, Nat.mod_eq_of_lt hj] at hsame

/-- The address is less than `n` bytes behind another one. -/
theorem sub_lt_iff {a : BitVec 32} (hn : n < 2 ^ 32) :
    (a - p).toNat < n ↔ ∃ i < n, a = byteAt p i := by
  constructor
  · intro h
    refine ⟨_, h, ?_⟩
    unfold byteAt
    rw [BitVec.ofNat_toNat, BitVec.setWidth_eq, BitVec.add_comm, BitVec.sub_add_cancel]
  · rintro ⟨i, hi, rfl⟩
    unfold byteAt
    rw [BitVec.add_comm, BitVec.add_sub_cancel, BitVec.toNat_ofNat, Nat.mod_eq_of_lt (hi.trans hn)]
    exact hi

/-- The addresses of a block are different. -/
theorem byteAt_nodup (h : p.toNat + n ≤ 2 ^ 32) {l : List ℕ} (hl : l.Nodup) (hlt : ∀ k ∈ l, k < n) :
    (l.map (byteAt p)).Nodup := by
  refine hl.map_on fun i hi j hj hij => ?_
  have hi := hlt i hi
  have hj := hlt j hj
  exact (byteAt_inj (by omega) (by omega)).mp hij

/-- The bytes of a range that does not wrap are the addresses in it. -/
theorem mem_byteAt_iff (h : p.toNat + n ≤ 2 ^ 32) {l : List ℕ} (hl : ∀ k, k ∈ l ↔ k < n)
    (a : BitVec 32) : a ∈ l.map (byteAt p) ↔ p.toNat ≤ a.toNat ∧ a.toNat < p.toNat + n := by
  rw [List.mem_map]
  constructor
  · rintro ⟨k, hk, rfl⟩
    have hk := (hl k).mp hk
    rw [byteAt_toNat (by omega)]
    omega
  · rintro ⟨hle, hlt⟩
    refine ⟨a.toNat - p.toNat, (hl _).mpr (by omega), BitVec.eq_of_toNat_eq ?_⟩
    rw [byteAt_toNat (by omega)]
    omega

end Addresses

section Loops

variable {dest src n : BitVec 32} {m : ByteMem}

/-- The first loop goes up. -/
theorem memcpyLoop_eq (len : ℕ) (d s : BitVec 32) (m : ByteMem) :
    memcpyLoop len d s m = copyEach (byteAt d) (byteAt s) (List.range len) m := by
  induction len generalizing d s m with
  | zero => rfl
  | succ len ih =>
    have hshift : ∀ p : BitVec 32, byteAt p ∘ Nat.succ = byteAt (p + 1) :=
      fun p => funext fun k => (byteAt_succ p k).symm
    rw [memcpyLoop, ih, List.range_succ_eq_map, copyEach_cons, copyEach_map, hshift, hshift,
      byteAt_zero, byteAt_zero]

/-- `memcpy` copies byte by byte from the lowest address on. -/
theorem memcpy_eq (dest src len : BitVec 32) (m : ByteMem) :
    memcpy dest src len m =
      (dest, copyEach (byteAt dest) (byteAt src) (List.range len.toNat) m) :=
  congrArg (Prod.mk dest) (memcpyLoop_eq len.toNat dest src m)

/-- The second loop goes down. -/
theorem memmoveDown_eq (n : ℕ) (d s : BitVec 32) (m : ByteMem) :
    memmoveDown n (byteAt d n) (byteAt s n) m =
      copyEach (byteAt d) (byteAt s) (List.range n).reverse m := by
  induction n generalizing m with
  | zero => rfl
  | succ n ih =>
    have hback : ∀ p : BitVec 32, byteAt p (n + 1) - 1 = byteAt p n := by
      intro p
      rw [← byteAt_succ]
      unfold byteAt
      rw [BitVec.add_assoc, BitVec.add_comm 1, ← BitVec.add_assoc, BitVec.add_sub_cancel]
    rw [memmoveDown, hback, hback, ih, List.range_succ, List.reverse_append]
    rfl

/-- A copy in any order of the bytes is right for every memory exactly when no byte is written
before it is read. -/
theorem moved_iff (hdest : dest.toNat + n.toNat ≤ 2 ^ 32) (hsrc : src.toNat + n.toNat ≤ 2 ^ 32)
    {l : List ℕ} (hl : l.Perm (List.range n.toNat)) :
    (∀ m, Moved dest src n m (copyEach (byteAt dest) (byteAt src) l m)) ↔
      Intact (byteAt dest) (byteAt src) l := by
  have hmem : ∀ k, k ∈ l ↔ k < n.toNat := fun k => hl.mem_iff.trans List.mem_range
  have hnodup : l.Nodup := hl.nodup_iff.mpr List.nodup_range
  have hlt : ∀ k ∈ l, k < n.toNat := fun k => (hmem k).mp
  have : Nontrivial Byte := ⟨⟨0, 1, by decide⟩⟩
  rw [← copyEach_iff (V := Byte) (byteAt_nodup hdest hnodup hlt) (byteAt_nodup hsrc hnodup hlt)]
  constructor
  · intro hmoved m i hi
    have hsmall : i < 2 ^ 32 := (hlt i hi).trans n.isLt
    have hi' : BitVec.ofNat 32 i < n := by
      rw [BitVec.lt_def, BitVec.toNat_ofNat, Nat.mod_eq_of_lt hsmall]
      exact hlt i hi
    exact (hmoved m).copied _ hi'
  · intro hright m
    refine ⟨fun i hi => ?_, fun a ha => copyEach_of_notMem ?_⟩
    · have hcopy := hright m i.toNat ((hmem _).mpr hi)
      unfold byteAt at hcopy
      rwa [BitVec.ofNat_toNat, BitVec.setWidth_eq] at hcopy
    · rwa [mem_byteAt_iff hdest hmem]

/-- Going up, the bytes of a block that lies further up are read in time. -/
theorem up_intact (hdest : dest.toNat + n.toNat ≤ 2 ^ 32) (hsrc : src.toNat + n.toNat ≤ 2 ^ 32)
    (hle : dest ≤ src) : Intact (byteAt dest) (byteAt src) (List.range n.toNat) := by
  refine List.pairwise_lt_range.imp_of_mem fun {j i} hj hi hji hsame => ?_
  have hj := List.mem_range.mp hj
  have hi := List.mem_range.mp hi
  have hle : dest.toNat ≤ src.toNat := hle
  have hsame := congrArg BitVec.toNat hsame
  rw [byteAt_toNat (by omega), byteAt_toNat (by omega)] at hsame
  omega

/-- Going down, those of a block that lies further down are. -/
theorem down_intact (hdest : dest.toNat + n.toNat ≤ 2 ^ 32) (hsrc : src.toNat + n.toNat ≤ 2 ^ 32)
    (hle : src ≤ dest) : Intact (byteAt dest) (byteAt src) (List.range n.toNat).reverse := by
  refine List.pairwise_reverse.mpr (List.pairwise_lt_range.imp_of_mem fun {i j} hi hj hij hsame =>
    ?_)
  have hj := List.mem_range.mp hj
  have hi := List.mem_range.mp hi
  have hle : src.toNat ≤ dest.toNat := hle
  have hsame := congrArg BitVec.toNat hsame
  rw [byteAt_toNat (by omega), byteAt_toNat (by omega)] at hsame
  omega

/-- Going down, the first byte of an overlapping block further up is written before it is read. -/
theorem not_down_intact (hlt : dest < src) (hoverlap : src.toNat < dest.toNat + n.toNat) :
    ¬ Intact (byteAt dest) (byteAt src) (List.range n.toNat).reverse := by
  intro h
  have hlt : dest.toNat < src.toNat := hlt
  have hpair := List.pairwise_iff_getElem.mp (List.pairwise_reverse.mp h) 0 (src.toNat - dest.toNat)
    (by rw [List.length_range]; omega) (by rw [List.length_range]; omega) (by omega)
  rw [List.getElem_range, List.getElem_range] at hpair
  refine hpair (BitVec.eq_of_toNat_eq ?_)
  rw [byteAt_toNat (by omega), byteAt_toNat (by omega)]
  omega

/-- `memmove` brings every byte to its place, whatever the overlap.  Where it leaves the copy to
`memcpy`, this goes up, and must not go down if the blocks overlap. -/
theorem memmove_moves (hdest : dest.toNat + n.toNat ≤ 2 ^ 32)
    (hsrc : src.toNat + n.toNat ≤ 2 ^ 32) :
    (∀ m, (memmove dest src n m).1 = dest ∧ Moved dest src n m (memmove dest src n m).2) ∧
    (dest < src →
      (∀ m, memmove dest src n m = memcpy dest src n m ∧
        (memcpy dest src n m).2 = copyEach (byteAt dest) (byteAt src) (List.range n.toNat) m) ∧
      (src.toNat < dest.toNat + n.toNat →
        ¬ ∀ m, Moved dest src n m
          (copyEach (byteAt dest) (byteAt src) (List.range n.toNat).reverse m))) := by
  have hup : dest < src → ∀ m, memmove dest src n m = memcpy dest src n m := by
    intro hlt m
    unfold memmove
    rw [if_neg (BitVec.ne_of_lt hlt), if_pos hlt]
  refine ⟨fun m => ?_, fun hlt => ⟨fun m => ⟨hup hlt m, ?_⟩, fun hoverlap hall => ?_⟩⟩
  · rcases Nat.lt_trichotomy dest.toNat src.toNat with hlt | heq | hgt
    · rw [hup hlt, memcpy_eq]
      have hle : dest ≤ src := Nat.le_of_lt hlt
      exact ⟨rfl, (moved_iff hdest hsrc (List.Perm.refl _)).mpr (up_intact hdest hsrc hle) m⟩
    · obtain rfl := BitVec.eq_of_toNat_eq heq
      unfold memmove
      rw [if_pos rfl]
      exact ⟨rfl, fun _ _ => rfl, fun _ _ => rfl⟩
    · unfold memmove
      have hle : src ≤ dest := Nat.le_of_lt hgt
      rw [if_neg (BitVec.ne_of_lt hgt).symm, if_neg (BitVec.not_lt.mpr hle)]
      refine ⟨rfl, ?_⟩
      have hstart : ∀ p : BitVec 32, p + n = byteAt p n.toNat := by
        intro p
        unfold byteAt
        rw [BitVec.ofNat_toNat, BitVec.setWidth_eq]
      dsimp only
      rw [hstart, hstart, memmoveDown_eq]
      exact (moved_iff hdest hsrc (List.reverse_perm _)).mpr (down_intact hdest hsrc hle) m
  · rw [memcpy_eq]
  · exact not_down_intact hlt hoverlap ((moved_iff hdest hsrc (List.reverse_perm _)).mp hall)

/-- Four bytes, one byte down: going down, the last one would arrive four times. -/
theorem memmove_moves_overlap :
    (∀ m, Moved 0x1000 0x1001 4 m (memmove 0x1000 0x1001 4 m).2) ∧
      ¬ ∀ m, Moved 0x1000 0x1001 4 m (copyEach (byteAt 0x1000) (byteAt 0x1001) [3, 2, 1, 0] m) :=
  ⟨fun m => ((memmove_moves (by decide) (by decide)).1 m).2,
    ((memmove_moves (by decide) (by decide)).2 (by decide)).2 (by decide)⟩

end Loops

end AuriOS
