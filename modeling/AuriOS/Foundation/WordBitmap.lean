import Mathlib

/-!
# Bitmaps kept in a list of machine words

A list of `w`-bit words is read as a map from the naturals below `w * l.length` to bits, bit `f`
being bit `f % w` of word `f / w`.  `bit_set` is the effect of replacing one word by a word that
differs from it in one bit, and `lowestClear` is the plain bit-by-bit scan for the least clear
bit, against which faster scans are compared.
-/

namespace WordBitmap

variable {w : ℕ}

/-- Bit `f` of the bitmap; bits past the end read as set. -/
def bit (l : List (BitVec w)) (f : ℕ) : Bool :=
  (l.getD (f / w) (BitVec.allOnes w)).getLsbD (f % w)

/-- The bit of a number is the bit of the word that holds it. -/
theorem bit_eq_of_getElem? {l : List (BitVec w)} {f : ℕ} {b : BitVec w} (h : l[f / w]? = some b) :
    bit l f = b.getLsbD (f % w) := by
  simp [bit, List.getD_eq_getElem?_getD, h]

/-- Word `i` of a bitmap is the word of every bit between `w * i` and `w * (i + 1)`. -/
theorem div_lt_length {l : List (BitVec w)} {f : ℕ} (hf : f < w * l.length) :
    f / w < l.length :=
  Nat.div_lt_of_lt_mul hf

/-- A number past the last word reads as set. -/
theorem bit_of_le (hw : 0 < w) {l : List (BitVec w)} {f : ℕ} (hf : w * l.length ≤ f) :
    bit l f = true := by
  have hlen : l.length ≤ f / w := (Nat.le_div_iff_mul_le hw).mpr (by rwa [Nat.mul_comm])
  rw [bit, List.getD_eq_getElem?_getD, List.getElem?_eq_none hlen, Option.getD_none,
    BitVec.getLsbD_allOnes]
  simpa using Nat.mod_lt f hw

/-- Replacing a word by one that differs in bit `f % w` changes bit `f` of the bitmap only. -/
theorem bit_set (hw : 0 < w) {l : List (BitVec w)} {f : ℕ} (hf : f < w * l.length)
    {b : BitVec w} {v : Bool}
    (hb : ∀ j < w, b.getLsbD j = if j = f % w then v
      else (l.getD (f / w) (BitVec.allOnes w)).getLsbD j) (g : ℕ) :
    bit (l.set (f / w) b) g = if g = f then v else bit l g := by
  have hlen := div_lt_length hf
  by_cases hdiv : g / w = f / w
  · have hbit : bit (l.set (f / w) b) g = b.getLsbD (g % w) := by
      simp [bit, hdiv, List.getD_eq_getElem?_getD, hlen]
    rw [hbit, hb _ (Nat.mod_lt _ hw)]
    have hgf : g % w = f % w ↔ g = f := by
      constructor
      · intro hmod
        rw [← Nat.div_add_mod g w, ← Nat.div_add_mod f w, hdiv, hmod]
      · rintro rfl
        rfl
    simp only [hgf, bit, hdiv]
  · have hne : g ≠ f := fun h => hdiv (h ▸ rfl)
    simp [bit, hne, List.getD_eq_getElem?_getD, List.getElem?_set_ne (Ne.symm hdiv)]

/-- The least clear bit, found by looking at the bits one by one. -/
def lowestClear (l : List (BitVec w)) : Option ℕ :=
  (List.range (w * l.length)).find? fun f => !bit l f

/-- The number found is clear, in range, and all below it are set. -/
theorem lowestClear_eq_some_iff {l : List (BitVec w)} {f : ℕ} :
    lowestClear l = some f ↔
      bit l f = false ∧ f < w * l.length ∧ ∀ g < f, bit l g = true := by
  simp [lowestClear, List.find?_range_eq_some]

/-- Nothing is found exactly when every bit in range is set. -/
theorem lowestClear_eq_none_iff {l : List (BitVec w)} :
    lowestClear l = none ↔ ∀ f < w * l.length, bit l f = true := by
  simp [lowestClear]

end WordBitmap
