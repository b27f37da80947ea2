import AuriOS.Drivers.Font
import AuriOS.Foundation.Footprint
import AuriOS.Foundation.Program
import AuriOS.Lib.Bytes

/-!
# The framebuffer

`framebuffer.c` on a flat memory.  A pixel has as many bytes as the mode says, but `fb_put_pixel`
always stores four.

* `fbDrawChar_eq`, `fbClear_eq`: both loops paint a list of pixels, one after the other;
* `fbPutPixel_eq_self_iff`, `fbDrawChar_eq_self_iff`, `fbClear_eq_self_iff`: the bytes that each of
  them leaves alone, from what one pixel and what a list of pixels changes;
* `drawsInside_iff`: the drawing routines keep to their pixels exactly when the store of a pixel
  fits, which `Framebuffer.Mode.fits` has for 32 bits.
-/

namespace AuriOS

open Footprint Program

/-- `fb_addr` to `fb_bpp`. -/
structure Framebuffer where
  addr : BitVec 32
  pitch : BitVec 32
  width : BitVec 32
  height : BitVec 32
  bpp : BitVec 32

/-- The fields of the multiboot information that describe the framebuffer. -/
structure FramebufferInfo where
  framebufferAddr : BitVec 64
  framebufferPitch : BitVec 32
  framebufferWidth : BitVec 32
  framebufferHeight : BitVec 32
  framebufferBpp : Byte

/-- `fb_init`. -/
def fbInit (mboot : FramebufferInfo) : Framebuffer where
  addr := mboot.framebufferAddr.setWidth 32
  pitch := mboot.framebufferPitch
  width := mboot.framebufferWidth
  height := mboot.framebufferHeight
  bpp := mboot.framebufferBpp.setWidth 32

/-- `*(uint32_t *) p = v`. -/
def storeWord (p v : BitVec 32) (m : ByteMem) : ByteMem := fun a =>
  if a - p < 4 then v.extractLsb' (8 * (a - p).toNat) 8 else m a

/-- `fb_put_pixel`. -/
def fbPutPixel (fb : Framebuffer) (x y color : BitVec 32) (m : ByteMem) : ByteMem :=
  if x ≥ fb.width ∨ y ≥ fb.height then m
  else
    let offset := y * fb.pitch + x * (fb.bpp / 8)
    storeWord (fb.addr + offset) color m

/-- `glyph[row]`; the bytes behind `font_8x16` are those of `behind`. -/
def glyphRow (behind : ℕ → Byte) (c : Byte) (row : ℕ) : Byte :=
  if c.toNat < 128 then font8x16 c.toNat row else behind (16 * (c.toNat - 128) + row)

/-- `fb_draw_char`; `behind` is what lies behind the font's bytes. -/
def fbDrawChar (behind : ℕ → Byte) (fb : Framebuffer) (c : Byte) (x y fg bg : BitVec 32)
    (m : ByteMem) : ByteMem :=
  forLoop (fun row m => forLoop (fun col m =>
    if glyphRow behind c row &&& ((0x80 : Byte) >>> col) ≠ 0 then
      fbPutPixel fb (x + BitVec.ofNat 32 col) (y + BitVec.ofNat 32 row) fg m
    else fbPutPixel fb (x + BitVec.ofNat 32 col) (y + BitVec.ofNat 32 row) bg m) 0 8 m) 0 16 m

/-- `fb_clear`. -/
def fbClear (fb : Framebuffer) (color : BitVec 32) (m : ByteMem) : ByteMem :=
  forLoop (fun y m => forLoop (fun x m =>
    fbPutPixel fb (BitVec.ofNat 32 x) (BitVec.ofNat 32 y) color m) 0 fb.width.toNat m)
    0 fb.height.toNat m

/-! ### Pixels and their bytes -/

/-- The modes of the framebuffer. -/
structure Framebuffer.Mode (fb : Framebuffer) : Prop where
  bpp : fb.bpp = 8 ∨ fb.bpp = 16 ∨ fb.bpp = 24 ∨ fb.bpp = 32
  pitch : fb.width.toNat * fb.bpp.toNat / 8 ≤ fb.pitch.toNat
  size : fb.pitch.toNat * fb.height.toNat < 2 ^ 32

/-- The coordinates that `fb_put_pixel` does not turn away. -/
def Framebuffer.OnScreen (fb : Framebuffer) (x y : BitVec 32) : Prop := x < fb.width ∧ y < fb.height

instance (fb : Framebuffer) (x y : BitVec 32) : Decidable (fb.OnScreen x y) :=
  inferInstanceAs (Decidable (_ ∧ _))

/-- The bytes of a pixel. -/
def Framebuffer.bytes (fb : Framebuffer) : ℕ := fb.bpp.toNat / 8

/-- How far a pixel lies behind the beginning of the framebuffer. -/
def Framebuffer.place (fb : Framebuffer) (x y : BitVec 32) : ℕ :=
  y.toNat * fb.pitch.toNat + x.toNat * fb.bytes

/-- The address is that of a byte of the pixel. -/
def Framebuffer.PixelByte (fb : Framebuffer) (x y a : BitVec 32) : Prop :=
  ∃ i < fb.bytes, a = byteAt fb.addr (fb.place x y + i)

instance (fb : Framebuffer) (x y a : BitVec 32) : Decidable (fb.PixelByte x y a) :=
  inferInstanceAs (Decidable (∃ i < fb.bytes, _))

/-- The pixel is one of the 8 by 16 from `(x, y)` on. -/
def InCell (x y px py : BitVec 32) : Prop :=
  (x.toNat ≤ px.toNat ∧ px.toNat < x.toNat + 8) ∧ y.toNat ≤ py.toNat ∧ py.toNat < y.toNat + 16

/-- `fb_put_pixel` changes bytes of its pixel only, all of them in the framebuffer, and none off the
screen; `fb_draw_char` leaves every pixel outside of its cell alone, and `fb_clear` what is not in
the framebuffer. -/
structure DrawsInside (behind : ℕ → Byte) (fb : Framebuffer) (c : Byte)
    (x y color fg bg : BitVec 32) : Prop where
  pixel : ∀ m a, fbPutPixel fb x y color m a ≠ m a → fb.PixelByte x y a
  inside : fb.OnScreen x y → fb.place x y + fb.bytes ≤ fb.pitch.toNat * fb.height.toNat
  offScreen : ¬ fb.OnScreen x y → ∀ m, fbPutPixel fb x y color m = m
  cell : ∀ m px py a, fb.OnScreen px py → ¬ InCell x y px py → fb.PixelByte px py a →
    fbDrawChar behind fb c x y fg bg m a = m a
  clear : ∀ m a, fbClear fb color m a ≠ m a →
    ∃ k < fb.pitch.toNat * fb.height.toNat, a = byteAt fb.addr k

/-- The store of a pixel covers this byte. -/
def Framebuffer.Stores (fb : Framebuffer) (x y a : BitVec 32) : Prop :=
  fb.OnScreen x y ∧ ∃ i < 4, a = byteAt fb.addr (fb.place x y + i)

/-- Paints the pixels one after the other. -/
def paint (fb : Framebuffer) (pixels : List (BitVec 32 × BitVec 32 × BitVec 32)) (m : ByteMem) :
    ByteMem :=
  runEach (fun p => fbPutPixel fb p.1 p.2.1 p.2.2) pixels m

/-- The pixels of a character, in the order in which `fb_draw_char` paints them. -/
def charPixels (behind : ℕ → Byte) (c : Byte) (x y fg bg : BitVec 32) :
    List (BitVec 32 × BitVec 32 × BitVec 32) :=
  grid 8 16 fun row col => (x + BitVec.ofNat 32 col, y + BitVec.ofNat 32 row,
    if glyphRow behind c row &&& ((0x80 : Byte) >>> col) ≠ 0 then fg else bg)

/-- The pixels of the screen, in the order in which `fb_clear` paints them. -/
def screenPixels (fb : Framebuffer) (color : BitVec 32) :
    List (BitVec 32 × BitVec 32 × BitVec 32) :=
  grid fb.width.toNat fb.height.toNat fun y x => (BitVec.ofNat 32 x, BitVec.ofNat 32 y, color)

/-- Pixels on the screen have 32 bits, no pixel of the cell at `(x, y)` wraps around onto the
screen, and four bytes from the last pixel of a row lie in the row. -/
structure Framebuffer.Fits (fb : Framebuffer) (x y : BitVec 32) : Prop where
  pixel : fb.OnScreen x y → fb.bpp = 32
  cell : ∀ col < 8, ∀ row < 16, fb.OnScreen (x + BitVec.ofNat 32 col) (y + BitVec.ofNat 32 row) →
    x.toNat + col < 2 ^ 32 ∧ y.toNat + row < 2 ^ 32
  row : 0 < fb.width → 0 < fb.height → (fb.width.toNat - 1) * fb.bytes + 4 ≤ fb.pitch.toNat

section Framebuffer

variable {fb : Framebuffer} {x y px py color fg bg a : BitVec 32} {m m' : ByteMem}
  {behind : ℕ → Byte} {c : Byte}

/-- Quotient and remainder are unique. -/
theorem mul_add_inj {p q r i j : ℕ} (hi : i < p) (hj : j < p) (h : q * p + i = r * p + j) :
    q = r ∧ i = j := by
  have hp : 0 < p := Nat.zero_lt_of_lt hi
  have hq : (q * p + i) / p = q ∧ (q * p + i) % p = i :=
    (Nat.div_mod_unique hp).mpr ⟨by rw [Nat.mul_comm p, Nat.add_comm], hi⟩
  have hr : (r * p + j) / p = r ∧ (r * p + j) % p = j :=
    (Nat.div_mod_unique hp).mpr ⟨by rw [Nat.mul_comm p, Nat.add_comm], hj⟩
  rw [h] at hq
  exact ⟨hq.1.symm.trans hr.1, hq.2.symm.trans hr.2⟩

/-- A pixel has one to four bytes, four of them exactly at 32 bits. -/
theorem Framebuffer.Mode.bytes_cases (h : fb.Mode) :
    0 < fb.bytes ∧ fb.bytes ≤ 4 ∧ (fb.bytes = 4 ↔ fb.bpp = 32) ∧ fb.bpp.toNat = 8 * fb.bytes := by
  unfold Framebuffer.bytes
  rcases h.bpp with hbpp | hbpp | hbpp | hbpp <;> rw [hbpp] <;> decide

/-- The pixels of a row fit in it. -/
theorem Framebuffer.Mode.row_le (h : fb.Mode) : fb.width.toNat * fb.bytes ≤ fb.pitch.toNat := by
  have hpitch := h.pitch
  obtain ⟨-, -, -, hbpp⟩ := h.bytes_cases
  rwa [hbpp, Nat.mul_left_comm, Nat.mul_div_cancel_left _ (by decide)] at hpitch

/-- A pixel lies in its row. -/
theorem Framebuffer.Mode.column_le (h : fb.Mode) (hs : fb.OnScreen x y) :
    x.toNat * fb.bytes + fb.bytes ≤ fb.pitch.toNat := by
  have hx : x.toNat + 1 ≤ fb.width.toNat := hs.1
  calc x.toNat * fb.bytes + fb.bytes = (x.toNat + 1) * fb.bytes := (Nat.succ_mul _ _).symm
    _ ≤ fb.width.toNat * fb.bytes := Nat.mul_le_mul_right _ hx
    _ ≤ fb.pitch.toNat := h.row_le

/-- A row lies in the framebuffer. -/
theorem Framebuffer.OnScreen.row_end_le (hs : fb.OnScreen x y) :
    y.toNat * fb.pitch.toNat + fb.pitch.toNat ≤ fb.pitch.toNat * fb.height.toNat := by
  have hy : y.toNat + 1 ≤ fb.height.toNat := hs.2
  rw [← Nat.succ_mul, Nat.mul_comm fb.pitch.toNat]
  exact Nat.mul_le_mul_right _ hy

/-- A pixel on the screen ends inside the frame buffer. -/
theorem Framebuffer.Mode.place_le (h : fb.Mode) (hs : fb.OnScreen x y) :
    fb.place x y + fb.bytes ≤ fb.pitch.toNat * fb.height.toNat := by
  have hcolumn := h.column_le hs
  have hrow := hs.row_end_le
  unfold Framebuffer.place
  omega

/-- The offset does not overflow. -/
theorem Framebuffer.Mode.offset_eq (h : fb.Mode) (hs : fb.OnScreen x y) :
    fb.addr + (y * fb.pitch + x * (fb.bpp / 8)) = byteAt fb.addr (fb.place x y) := by
  have hlt : fb.place x y < 2 ^ 32 := by
    have hplace := h.place_le hs
    have hsize := h.size
    obtain ⟨hpos, -⟩ := h.bytes_cases
    omega
  refine congrArg (fb.addr + ·) (BitVec.eq_of_toNat_eq ?_)
  rw [BitVec.toNat_add, BitVec.toNat_mul, BitVec.toNat_mul, BitVec.toNat_udiv, ← Nat.add_mod,
    BitVec.toNat_ofNat]
  rfl

/-! ### What a pixel changes -/

/-- A store leaves the bytes outside its four alone. -/
theorem storeWord_of_not {p v : BitVec 32} (ha : ¬ ∃ i < 4, a = byteAt p i) :
    storeWord p v m a = m a :=
  if_neg fun hlt => ha ((sub_lt_iff (by decide)).mp hlt)

/-- The four bytes of a store do not depend on what was there. -/
theorem storeWord_of {p v : BitVec 32} (ha : ∃ i < 4, a = byteAt p i) :
    storeWord p v m a = storeWord p v m' a := by
  have hlt : a - p < 4 := (sub_lt_iff (by decide)).mpr ha
  unfold storeWord
  rw [if_pos hlt, if_pos hlt]

/-- A pixel off the screen is not drawn. -/
theorem fbPutPixel_offScreen (hs : ¬ fb.OnScreen x y) : fbPutPixel fb x y color m = m := by
  unfold Framebuffer.OnScreen at hs
  rw [not_and_or, BitVec.not_lt, BitVec.not_lt] at hs
  exact if_pos hs

/-- A pixel on the screen is one store at its place. -/
theorem fbPutPixel_onScreen (h : fb.Mode) (hs : fb.OnScreen x y) :
    fbPutPixel fb x y color m = storeWord (byteAt fb.addr (fb.place x y)) color m := by
  have hin : ¬ (x ≥ fb.width ∨ y ≥ fb.height) := by
    rw [not_or, BitVec.not_le, BitVec.not_le]
    exact hs
  unfold fbPutPixel
  rw [if_neg hin]
  exact congrArg (storeWord · color m) (h.offset_eq hs)

/-- A pixel changes at most the bytes of its store. -/
theorem fbPutPixel_of_not_stores (h : fb.Mode) (ha : ¬ fb.Stores x y a) :
    fbPutPixel fb x y color m a = m a := by
  by_cases hs : fb.OnScreen x y
  · rw [fbPutPixel_onScreen h hs]
    refine storeWord_of_not fun ⟨i, hi, hai⟩ => ha ⟨hs, i, hi, ?_⟩
    rw [hai, byteAt_byteAt]
  · rw [fbPutPixel_offScreen hs]

/-- On those, memory is as the store left it, whatever it was before. -/
theorem fbPutPixel_of_stores (h : fb.Mode) (ha : fb.Stores x y a) :
    fbPutPixel fb x y color m a = fbPutPixel fb x y color m' a := by
  obtain ⟨hs, i, hi, hai⟩ := ha
  rw [fbPutPixel_onScreen h hs, fbPutPixel_onScreen h hs]
  exact storeWord_of ⟨i, hi, by rw [hai, byteAt_byteAt]⟩

/-! ### What a list of pixels changes -/

/-- What a pixel writes is its store. -/
theorem Framebuffer.Mode.hasFootprint (h : fb.Mode) :
    HasFootprint (fun p : BitVec 32 × BitVec 32 × BitVec 32 => fbPutPixel fb p.1 p.2.1 p.2.2)
      (fun p a => fb.Stores p.1 p.2.1 a) where
  frame := fun _ ha => fbPutPixel_of_not_stores h ha
  fixed := fun _ _ ha => fbPutPixel_of_stores h ha

/-- The pixels leave a byte alone in every memory exactly when none of them stores there. -/
theorem paint_eq_self_iff (h : fb.Mode) (pixels : List (BitVec 32 × BitVec 32 × BitVec 32)) :
    (∀ m, paint fb pixels m a = m a) ↔ ¬ ∃ p ∈ pixels, fb.Stores p.1 p.2.1 a := by
  have hbyte : Nontrivial Byte := ⟨0, 1, by decide⟩
  exact runEach_eq_self_iff h.hasFootprint

/-- A character is drawn pixel by pixel. -/
theorem fbDrawChar_eq :
    fbDrawChar behind fb c x y fg bg m = paint fb (charPixels behind c x y fg bg) m := by
  refine forLoop_grid (fun row col m => ?_) m
  split <;> rfl

/-- The screen is cleared pixel by pixel. -/
theorem fbClear_eq : fbClear fb color m = paint fb (screenPixels fb color) m := by
  refine forLoop_grid (fun y x m => ?_) m
  rfl

/-! ### The pixels that the loops paint -/

/-- The pixels of the screen are those on the screen. -/
theorem exists_screenPixels_iff {P : BitVec 32 → BitVec 32 → Prop} :
    (∃ p ∈ screenPixels fb color, P p.1 p.2.1) ↔ ∃ x y, fb.OnScreen x y ∧ P x y := by
  unfold screenPixels
  rw [exists_mem_grid_iff]
  constructor
  · rintro ⟨y, hy, x, hx, hP⟩
    refine ⟨_, _, ⟨?_, ?_⟩, hP⟩
    · rw [BitVec.lt_def, BitVec.toNat_ofNat, Nat.mod_eq_of_lt (hx.trans fb.width.isLt)]
      exact hx
    · rw [BitVec.lt_def, BitVec.toNat_ofNat, Nat.mod_eq_of_lt (hy.trans fb.height.isLt)]
      exact hy
  · rintro ⟨x, y, ⟨hx, hy⟩, hP⟩
    refine ⟨y.toNat, hy, x.toNat, hx, ?_⟩
    rw [BitVec.ofNat_toNat, BitVec.setWidth_eq, BitVec.ofNat_toNat, BitVec.setWidth_eq]
    exact hP

/-- `fb_put_pixel` leaves a byte alone exactly when its store does not cover it. -/
theorem fbPutPixel_eq_self_iff (h : fb.Mode) :
    (∀ m, fbPutPixel fb x y color m a = m a) ↔ ¬ fb.Stores x y a := by
  calc (∀ m, fbPutPixel fb x y color m a = m a)
      ↔ ∀ m, paint fb [(x, y, color)] m a = m a := Iff.rfl
    _ ↔ ¬ ∃ p ∈ [(x, y, color)], fb.Stores p.1 p.2.1 a := paint_eq_self_iff h _
    _ ↔ ¬ fb.Stores x y a := by simp only [List.mem_singleton, exists_eq_left]

/-- `fb_draw_char` leaves a byte alone exactly when no store of its cell covers it. -/
theorem fbDrawChar_eq_self_iff (h : fb.Mode) :
    (∀ m, fbDrawChar behind fb c x y fg bg m a = m a) ↔
      ¬ ∃ row < 16, ∃ col < 8, fb.Stores (x + BitVec.ofNat 32 col) (y + BitVec.ofNat 32 row) a := by
  simp only [fbDrawChar_eq]
  rw [paint_eq_self_iff h, charPixels, exists_mem_grid_iff]

/-- `fb_clear` leaves a byte alone exactly when no store on the screen covers it. -/
theorem fbClear_eq_self_iff (h : fb.Mode) :
    (∀ m, fbClear fb color m a = m a) ↔ ¬ ∃ x y, fb.Stores x y a := by
  simp only [fbClear_eq]
  rw [paint_eq_self_iff h, exists_screenPixels_iff (P := fun x y => fb.Stores x y a)]
  simp only [and_iff_right_of_imp (fun ha : fb.Stores _ _ a => ha.1)]

/-! ### When the routines keep to their pixels -/

/-- With 32 bits, the bytes of a pixel are those of its store. -/
theorem Framebuffer.Stores.pixelByte (hbytes : fb.bytes = 4) (ha : fb.Stores x y a) :
    fb.PixelByte x y a := by
  unfold Framebuffer.PixelByte
  rw [hbytes]
  exact ha.2

/-- No byte belongs to two pixels. -/
theorem Framebuffer.Mode.pixel_eq (h : fb.Mode) (hs : fb.OnScreen x y) (hs' : fb.OnScreen px py)
    (ha : fb.PixelByte x y a) (ha' : fb.PixelByte px py a) : px = x ∧ py = y := by
  obtain ⟨i, hi, rfl⟩ := ha
  obtain ⟨j, hj, hplace⟩ := ha'
  have hsize := h.size
  have hle := h.place_le hs
  have hle' := h.place_le hs'
  have hcolumn := h.column_le hs
  have hcolumn' := h.column_le hs'
  rw [byteAt_inj (by omega) (by omega)] at hplace
  unfold Framebuffer.place at hplace
  rw [Nat.add_assoc, Nat.add_assoc] at hplace
  obtain ⟨hy, hcolumns⟩ := mul_add_inj (by omega) (by omega) hplace
  obtain ⟨hx, -⟩ := mul_add_inj hi hj hcolumns
  exact ⟨BitVec.eq_of_toNat_eq hx.symm, BitVec.eq_of_toNat_eq hy.symm⟩

/-- The store of a pixel stays in its row when that of the last pixel does. -/
theorem store_le
    (hrow : 0 < fb.width → 0 < fb.height → (fb.width.toNat - 1) * fb.bytes + 4 ≤ fb.pitch.toNat)
    (hs : fb.OnScreen px py) :
    fb.place px py + 4 ≤ fb.pitch.toNat * fb.height.toNat := by
  have hpx : px.toNat < fb.width.toNat := hs.1
  have hpy : py.toNat < fb.height.toNat := hs.2
  have hcolumn : px.toNat * fb.bytes ≤ (fb.width.toNat - 1) * fb.bytes :=
    Nat.mul_le_mul_right _ (Nat.le_sub_one_of_lt hpx)
  have hlast := hrow (Nat.zero_lt_of_lt hpx) (Nat.zero_lt_of_lt hpy)
  have hend := hs.row_end_le
  unfold Framebuffer.place
  omega

/-- Without wrapping around, the pixels on the screen are in the cell, which begins on the
screen. -/
theorem Framebuffer.Fits.inCell (hf : fb.Fits x y) {col row : ℕ} (hcol : col < 8) (hrow : row < 16)
    (hs : fb.OnScreen (x + BitVec.ofNat 32 col) (y + BitVec.ofNat 32 row)) :
    fb.OnScreen x y ∧ InCell x y (x + BitVec.ofNat 32 col) (y + BitVec.ofNat 32 row) := by
  obtain ⟨hx, hy⟩ := hf.cell col hcol row hrow hs
  have hpx : (x + BitVec.ofNat 32 col).toNat = x.toNat + col := by
    rw [BitVec.toNat_add, BitVec.toNat_ofNat, Nat.add_mod_mod, Nat.mod_eq_of_lt hx]
  have hpy : (y + BitVec.ofNat 32 row).toNat = y.toNat + row := by
    rw [BitVec.toNat_add, BitVec.toNat_ofNat, Nat.add_mod_mod, Nat.mod_eq_of_lt hy]
  unfold Framebuffer.OnScreen at hs ⊢
  unfold InCell
  rw [BitVec.lt_def, BitVec.lt_def, hpx, hpy] at hs
  rw [BitVec.lt_def, BitVec.lt_def, hpx, hpy]
  omega

/-- A pixel that wraps around is outside of the cell. -/
theorem not_inCell {col row : ℕ} (hcol : col < 8) (hrow : row < 16)
    (hwrap : ¬ (x.toNat + col < 2 ^ 32 ∧ y.toNat + row < 2 ^ 32)) :
    ¬ InCell x y (x + BitVec.ofNat 32 col) (y + BitVec.ofNat 32 row) := by
  unfold InCell
  rw [BitVec.toNat_add, BitVec.toNat_add, BitVec.toNat_ofNat, BitVec.toNat_ofNat]
  omega

/-- `fb_put_pixel` keeps to its pixel exactly when it has 32 bits or is not on the screen. -/
theorem fbPutPixel_inside_iff (h : fb.Mode) :
    (∀ m a, fbPutPixel fb x y color m a ≠ m a → fb.PixelByte x y a) ↔
      (fb.OnScreen x y → fb.bpp = 32) := by
  obtain ⟨-, hfour, hbytes, -⟩ := h.bytes_cases
  constructor
  · intro hpixel hs
    refine hbytes.mp (le_antisymm hfour (Nat.le_of_not_lt fun hlt => ?_))
    -- the store covers the byte behind the pixel
    have ha : fb.Stores x y (byteAt fb.addr (fb.place x y + fb.bytes)) := ⟨hs, fb.bytes, hlt, rfl⟩
    obtain ⟨m, hm⟩ := not_forall.mp fun hself => (fbPutPixel_eq_self_iff h).mp hself ha
    obtain ⟨i, hi, hai⟩ := hpixel m _ hm
    have hplace := h.place_le hs
    have hsize := h.size
    rw [byteAt_inj (by omega) (by omega)] at hai
    omega
  · intro hbpp m a hne
    have ha : fb.Stores x y a := by_contra fun hnot => hne (fbPutPixel_of_not_stores h hnot)
    exact ha.pixelByte (hbytes.mpr (hbpp ha.1))

/-- From the last pixel of the screen to the end of its row is the end of the framebuffer. -/
theorem Framebuffer.Mode.last_place (h : fb.Mode) (hwidth : 0 < fb.width)
    (hheight : 0 < fb.height) :
    fb.OnScreen (fb.width - 1) (fb.height - 1) ∧
      fb.place (fb.width - 1) (fb.height - 1) + (fb.pitch.toNat - (fb.width.toNat - 1) * fb.bytes) =
        fb.pitch.toNat * fb.height.toNat := by
  have hw : 0 < fb.width.toNat := hwidth
  have hh : 0 < fb.height.toNat := hheight
  have hx : (fb.width - 1).toNat = fb.width.toNat - 1 := BitVec.toNat_sub_of_le hw
  have hy : (fb.height - 1).toNat = fb.height.toNat - 1 := BitVec.toNat_sub_of_le hh
  have hs : fb.OnScreen (fb.width - 1) (fb.height - 1) := by
    unfold Framebuffer.OnScreen
    rw [BitVec.lt_def, BitVec.lt_def, hx, hy]
    omega
  have hcolumn := h.column_le hs
  have hrows : (fb.height.toNat - 1) * fb.pitch.toNat + fb.pitch.toNat =
      fb.pitch.toNat * fb.height.toNat := by
    rw [← Nat.succ_mul, Nat.succ_eq_add_one, Nat.sub_add_cancel hh, Nat.mul_comm]
  unfold Framebuffer.place
  rw [hx] at hcolumn
  rw [hx, hy]
  exact ⟨hs, by omega⟩

/-- `fb_clear` keeps to the framebuffer exactly when the store of the last pixel does. -/
theorem fbClear_inside_iff (h : fb.Mode) :
    (∀ m a, fbClear fb color m a ≠ m a →
        ∃ k < fb.pitch.toNat * fb.height.toNat, a = byteAt fb.addr k) ↔
      (0 < fb.width → 0 < fb.height → (fb.width.toNat - 1) * fb.bytes + 4 ≤ fb.pitch.toNat) := by
  constructor
  · intro hclear hwidth hheight
    obtain ⟨hs, hlast⟩ := h.last_place hwidth hheight
    by_contra hrow
    -- the store of the last pixel covers the byte behind the framebuffer
    have ha : fb.Stores (fb.width - 1) (fb.height - 1)
        (byteAt fb.addr (fb.pitch.toNat * fb.height.toNat)) := by
      refine ⟨hs, fb.pitch.toNat - (fb.width.toNat - 1) * fb.bytes, by omega, ?_⟩
      rw [hlast]
    obtain ⟨m, hm⟩ := not_forall.mp fun hself => (fbClear_eq_self_iff h).mp hself ⟨_, _, ha⟩
    obtain ⟨k, hk, hak⟩ := hclear m _ hm
    have hsize := h.size
    rw [byteAt_inj hsize (by omega)] at hak
    omega
  · intro hrow m a hne
    obtain ⟨px, py, hs, i, hi, hai⟩ : ∃ px py, fb.Stores px py a :=
      by_contra fun hnot => hne ((fbClear_eq_self_iff h).mpr hnot m)
    have hle := store_le hrow hs
    exact ⟨_, by omega, hai⟩

/-- Without wrapping around, characters of 32-bit pixels keep to their cells. -/
theorem Framebuffer.Fits.fbDrawChar_eq_self (h : fb.Mode) (hf : fb.Fits x y)
    (hs : fb.OnScreen px py) (hout : ¬ InCell x y px py) (ha : fb.PixelByte px py a) :
    fbDrawChar behind fb c x y fg bg m a = m a := by
  refine (fbDrawChar_eq_self_iff h).mpr (fun ⟨row, hrow, col, hcol, hstore⟩ => hout ?_) m
  obtain ⟨hxy, hin⟩ := hf.inCell hcol hrow hstore.1
  have hbytes : fb.bytes = 4 := h.bytes_cases.2.2.1.mpr (hf.pixel hxy)
  obtain ⟨hpx, hpy⟩ := h.pixel_eq hstore.1 hs (hstore.pixelByte hbytes) ha
  rwa [hpx, hpy]

/-- A pixel of the cell that wraps around onto the screen is drawn outside of the cell. -/
theorem DrawsInside.cell_lt (h : fb.Mode) (hd : DrawsInside behind fb c x y color fg bg)
    {col row : ℕ} (hcol : col < 8) (hrow : row < 16)
    (hs : fb.OnScreen (x + BitVec.ofNat 32 col) (y + BitVec.ofNat 32 row)) :
    x.toNat + col < 2 ^ 32 ∧ y.toNat + row < 2 ^ 32 := by
  by_contra hwrap
  obtain ⟨hpos, -⟩ := h.bytes_cases
  let a := byteAt fb.addr (fb.place (x + BitVec.ofNat 32 col) (y + BitVec.ofNat 32 row) + 0)
  have hself : ∀ m, fbDrawChar behind fb c x y fg bg m a = m a :=
    fun m => hd.cell m _ _ a hs (not_inCell hcol hrow hwrap) ⟨0, hpos, rfl⟩
  exact (fbDrawChar_eq_self_iff h).mp hself ⟨row, hrow, col, hcol, hs, 0, by decide, rfl⟩

/-- The drawing routines keep to their pixels exactly when the store of a pixel fits. -/
theorem drawsInside_iff (h : fb.Mode) (behind : ℕ → Byte) (c : Byte) (x y color fg bg : BitVec 32) :
    DrawsInside behind fb c x y color fg bg ↔ fb.Fits x y := by
  constructor
  · intro hd
    exact {
      pixel := (fbPutPixel_inside_iff h).mp hd.pixel
      cell := fun col hcol row hrow hs => hd.cell_lt h hcol hrow hs
      row := (fbClear_inside_iff h).mp hd.clear }
  · intro hf
    exact {
      pixel := (fbPutPixel_inside_iff h).mpr hf.pixel
      inside := h.place_le
      offScreen := fun hs m => fbPutPixel_offScreen hs
      cell := fun m px py a hs hout ha => hf.fbDrawChar_eq_self h hs hout ha
      clear := (fbClear_inside_iff h).mpr hf.row }

/-- Modes with 32 bits suit every cell that ends before the coordinates do. -/
theorem Framebuffer.Mode.fits (h : fb.Mode) (hbpp : fb.bpp = 32) (hx : x.toNat + 8 ≤ 2 ^ 32)
    (hy : y.toNat + 16 ≤ 2 ^ 32) : fb.Fits x y where
  pixel := fun _ => hbpp
  cell := fun col hcol row hrow _ => ⟨by omega, by omega⟩
  row := by
    intro hwidth hheight
    have hcolumn := h.column_le (h.last_place hwidth hheight).1
    have hbytes : fb.bytes = 4 := h.bytes_cases.2.2.1.mpr hbpp
    have hw : (fb.width - 1).toNat = fb.width.toNat - 1 := BitVec.toNat_sub_of_le hwidth
    rw [hw] at hcolumn
    omega

/-- In a 32-bit mode of 1024 by 768 a character stays inside its pixels. -/
theorem drawsInside_iff_xga :
    DrawsInside (fun _ => 0) (fbInit ⟨0xFD000000, 4096, 1024, 768, 32⟩) 65 10 20 0xFFFFFF 0xFFFFFF
      0 := by
  have hmode : (fbInit ⟨0xFD000000, 4096, 1024, 768, 32⟩).Mode := ⟨by decide, by decide, by decide⟩
  have hfits : (fbInit ⟨0xFD000000, 4096, 1024, 768, 32⟩).Fits 10 20 :=
    hmode.fits rfl (by decide) (by decide)
  exact (drawsInside_iff hmode (fun _ => 0) 65 10 20 0xFFFFFF 0xFFFFFF 0).mpr hfits

/-- With 24 bits, a pixel overwrites the first byte of the pixel to its right. -/
theorem fbPutPixel_overwrites_neighbour :
    ¬ ∀ (behind : ℕ → Byte) (fb : Framebuffer) (c : Byte) (x y color fg bg : BitVec 32),
      fb.Mode → DrawsInside behind fb c x y color fg bg := by
  intro h
  have hmode : (fbInit ⟨0xFD000000, 2400, 800, 600, 24⟩).Mode := ⟨by decide, by decide, by decide⟩
  have hinside := h (fun _ => 0) _ 65 0 0 0xFFFFFF 0xFFFFFF 0 hmode
  exact absurd (hinside.pixel (fun _ => 1) 0xFD000003 (by decide)) (by decide)

end Framebuffer

end AuriOS
