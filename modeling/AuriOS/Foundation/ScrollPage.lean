import Mathlib

/-!
# Scrolling screens

A page without end, in rows of `w` cells, and a screen of `h` such rows that scrolls when its
cursor runs off the last row.  Cells are addressed linearly, row after row.

* `Page`, with `put`, `newline`, `erase` and `seek`: what writing means when nothing is ever lost;
* `Holds page p as`: from the place `p` on the page reads `as`, as it does after `puts`;
* `Screen`, with `put` and `newline`, which end in `settle`: the screen moves up one row, with a
  blank row at the bottom, as soon as the cursor is past the last cell;
* `Shows w h blank top screen page`: the screen shows the `h` rows of the page from row `top` on,
  and the page is blank below.  Every operation keeps this, and `top` grows by what was scrolled:
  the row of the page's cursor is never below the screen (`topFor`).
-/

namespace ScrollPage

variable {α : Type}

/-! ### Places -/

/-- The row of a place. -/
theorem place_div {w row column : ℕ} (h : column < w) : (row * w + column) / w = row := by
  rw [Nat.add_comm, Nat.add_mul_div_right _ _ (Nat.zero_lt_of_lt h), Nat.div_eq_of_lt h,
    Nat.zero_add]

/-- The column of a place. -/
theorem place_mod {w row column : ℕ} (h : column < w) : (row * w + column) % w = column := by
  rw [Nat.mul_add_mod_self_right, Nat.mod_eq_of_lt h]

/-! ### Pages -/

/-- A page without end and the place of its cursor. -/
structure Page (α : Type) where
  cell : ℕ → α
  pos : ℕ

namespace Page

/-- A symbol goes to the position, which moves on. -/
def put (page : Page α) (a : α) : Page α := ⟨Function.update page.cell page.pos a, page.pos + 1⟩

/-- The position goes to the start of the next line. -/
def newline (w : ℕ) (page : Page α) : Page α := ⟨page.cell, (page.pos / w + 1) * w⟩

/-- One cell back, which becomes blank. -/
def erase (blank : α) (page : Page α) : Page α :=
  ⟨Function.update page.cell (page.pos - 1) blank, page.pos - 1⟩

/-- The position goes elsewhere. -/
def seek (pos : ℕ) (page : Page α) : Page α := ⟨page.cell, pos⟩

/-- Cells written one after the other. -/
def puts (page : Page α) (as : List α) : Page α := as.foldl put page

/-- The `n` cells before the cursor become blank. -/
def wipe (blank : α) (n : ℕ) (page : Page α) : Page α :=
  ⟨fun p => if page.pos - n ≤ p ∧ p < page.pos then blank else page.cell p, page.pos - n⟩

/-- From the place `p` on the page reads `as`. -/
def Holds (page : Page α) : ℕ → List α → Prop
  | _, [] => True
  | p, a :: as => page.cell p = a ∧ page.Holds (p + 1) as

section Texts

variable {page page' : Page α} {p n : ℕ} {blank a : α} {as bs : List α}

/-- Writing a text moves the position past it. -/
theorem puts_pos (page : Page α) (as : List α) : (page.puts as).pos = page.pos + as.length := by
  induction as generalizing page with
  | nil => rfl
  | cons a as ih =>
    change ((page.put a).puts as).pos = _
    rw [ih, List.length_cons, Nat.add_comm as.length, ← Nat.add_assoc]
    rfl

/-- Cells before and behind what was written stay. -/
theorem puts_cell (h : p < page.pos ∨ page.pos + as.length ≤ p) :
    (page.puts as).cell p = page.cell p := by
  induction as generalizing page with
  | nil => rfl
  | cons a as ih =>
    rw [List.length_cons] at h
    have hpos : (page.put a).pos = page.pos + 1 := rfl
    have hne : p ≠ page.pos := by omega
    change ((page.put a).puts as).cell p = _
    rw [ih (by rw [hpos]; omega)]
    exact Function.update_of_ne hne a page.cell

/-- A page holds the text that was just written to it. -/
theorem puts_holds (page : Page α) (as : List α) : (page.puts as).Holds page.pos as := by
  induction as generalizing page with
  | nil => trivial
  | cons a as ih =>
    have hfirst : ((page.put a).puts as).cell page.pos = (page.put a).cell page.pos :=
      puts_cell (Or.inl (Nat.lt_succ_self page.pos))
    have hput : (page.put a).cell page.pos = a := by
      change Function.update page.cell page.pos a page.pos = a
      rw [Function.update_self]
    exact ⟨hfirst.trans hput, ih (page.put a)⟩

/-- What a page reads depends on the cells read only. -/
theorem Holds.congr (h : page.Holds p as)
    (hcell : ∀ q, p ≤ q → q < p + as.length → page'.cell q = page.cell q) : page'.Holds p as := by
  induction as generalizing p with
  | nil => trivial
  | cons a as ih =>
    obtain ⟨hfirst, hrest⟩ := h
    rw [List.length_cons] at hcell
    refine ⟨(hcell p (Nat.le_refl p) (by omega)).trans hfirst, ih hrest fun q hle hlt => ?_⟩
    exact hcell q (by omega) (by omega)

/-- Moving the position changes no text. -/
theorem Holds.seek (h : page.Holds p as) (pos : ℕ) : (page.seek pos).Holds p as :=
  h.congr fun _ _ _ => rfl

/-- A page holds two texts in sequence when it holds each at its place. -/
theorem holds_append :
    page.Holds p (as ++ bs) ↔ page.Holds p as ∧ page.Holds (p + as.length) bs := by
  induction as generalizing p with
  | nil => exact (and_iff_right trivial).symm
  | cons a as ih =>
    change page.cell p = a ∧ page.Holds (p + 1) (as ++ bs) ↔
      (page.cell p = a ∧ page.Holds (p + 1) as) ∧ page.Holds (p + (as.length + 1)) bs
    rw [ih, and_assoc, Nat.add_assoc, Nat.add_comm 1]

/-- Each cell of a held text is the symbol at its place. -/
theorem Holds.cell_eq (h : page.Holds p as) {i : ℕ} (hi : i < as.length) :
    page.cell (p + i) = as[i] := by
  induction as generalizing p i with
  | nil => exact absurd hi (Nat.not_lt_zero i)
  | cons a as ih =>
    obtain ⟨hfirst, hrest⟩ := h
    cases i with
    | zero => exact hfirst
    | succ i =>
      have hrest := ih hrest (Nat.lt_of_succ_lt_succ hi)
      rwa [Nat.add_assoc, Nat.add_comm 1] at hrest

/-- A text that is continued from where the cursor stands. -/
theorem Holds.puts (h : page.Holds p as) (hpos : page.pos = p + as.length) (bs : List α) :
    (page.puts bs).Holds p (as ++ bs) := by
  refine holds_append.mpr ⟨h.congr fun q _ hlt => puts_cell (Or.inl (hpos ▸ hlt)), ?_⟩
  rw [← hpos]
  exact puts_holds page bs

/-- A wipe of no cells changes nothing. -/
theorem wipe_zero (blank : α) (page : Page α) : page.wipe blank 0 = page := by
  unfold wipe
  congr 1
  funext q
  exact if_neg fun hq => absurd (hq.1.trans_lt hq.2) (Nat.lt_irrefl _)

/-- One more cell back. -/
theorem erase_wipe (h : n < page.pos) :
    (page.wipe blank n).erase blank = page.wipe blank (n + 1) := by
  unfold wipe erase
  congr 1
  funext q
  rw [Function.update_apply]
  by_cases hq : q = page.pos - n - 1
  · rw [if_pos hq, if_pos (by omega)]
  · rw [if_neg hq]
    refine if_congr ?_ rfl rfl
    omega

/-- Cells that were wiped are blank. -/
theorem wipe_cell (hle : page.pos - n ≤ p) (hlt : p < page.pos) :
    (page.wipe blank n).cell p = blank :=
  if_pos ⟨hle, hlt⟩

end Texts

end Page

/-! ### Screens -/

/-- The cells of a screen and the place of its cursor. -/
structure Screen (α : Type) where
  cell : ℕ → α
  pos : ℕ

namespace Screen

/-- The screen moves up one row when the cursor is past the last cell. -/
def settle (w h : ℕ) (blank : α) (s : Screen α) : Screen α :=
  if s.pos < h * w then s
  else ⟨fun i => if i + w < h * w then s.cell (i + w) else blank, s.pos - w⟩

/-- A symbol goes to the position, and the screen scrolls if the position has left it. -/
def put (w h : ℕ) (blank : α) (s : Screen α) (a : α) : Screen α :=
  settle w h blank ⟨Function.update s.cell s.pos a, s.pos + 1⟩

/-- The position goes to the start of the next line, and the screen scrolls if it has left it. -/
def newline (w h : ℕ) (blank : α) (s : Screen α) : Screen α :=
  settle w h blank ⟨s.cell, (s.pos / w + 1) * w⟩

/-- Equal on the cells there are. -/
structure Agrees (w h : ℕ) (s s' : Screen α) : Prop where
  pos_eq : s'.pos = s.pos
  cell_eq : ∀ i, i < h * w → s'.cell i = s.cell i

end Screen

/-! ### What a screen shows -/

/-- The first row of the page that is in view when the rows from `top` on were, and the cursor of
the page has since moved. -/
def topFor (w h top : ℕ) (page : Page α) : ℕ := max top (page.pos / w + 1 - h)

/-- Scrolling twice is scrolling as far as the later place asks for. -/
theorem topFor_topFor {w h top : ℕ} {page page' : Page α} (hle : page.pos ≤ page'.pos) :
    topFor w h (topFor w h top page) page' = topFor w h top page' := by
  unfold topFor
  rw [Nat.max_assoc, Nat.max_eq_right (a := page.pos / w + 1 - h)]
  exact Nat.sub_le_sub_right (Nat.succ_le_succ (Nat.div_le_div_right hle)) h

/-- A row stays in view while the cursor is less than a screen behind it. -/
theorem topFor_le {w h top p : ℕ} {page : Page α} (hh : 0 < h) (htop : top * w ≤ p)
    (hpos : page.pos < p + (h - 1) * w) : topFor w h top page * w ≤ p := by
  unfold topFor
  rcases Nat.le_total (page.pos / w + 1 - h) top with hle | hle
  · rwa [Nat.max_eq_left hle]
  · have hrows : (page.pos / w + 1 - h) * w ≤ page.pos / w * w - (h - 1) * w := by
      rw [← Nat.sub_mul]
      exact Nat.mul_le_mul_right w (by omega)
    have hdiv := Nat.div_mul_le_self page.pos w
    rw [Nat.max_eq_right hle]
    omega

/-- The screen shows the page from row `top` on. -/
structure Shows (w h : ℕ) (blank : α) (top : ℕ) (screen : Screen α) (page : Page α) : Prop where
  pos_lt : screen.pos < h * w
  pos_eq : page.pos = top * w + screen.pos
  window : ∀ i, i < h * w → screen.cell i = page.cell (top * w + i)
  below : ∀ p, (top + h) * w ≤ p → page.cell p = blank

namespace Shows

variable {w h top : ℕ} {blank a : α} {screen screen' : Screen α} {page : Page α}

/-- Screens that agree on the grid show the same page. -/
theorem congr (hs : Shows w h blank top screen page) (ha : Screen.Agrees w h screen screen') :
    Shows w h blank top screen' page where
  pos_lt := ha.pos_eq ▸ hs.pos_lt
  pos_eq := ha.pos_eq ▸ hs.pos_eq
  window i hi := (ha.cell_eq i hi).trans (hs.window i hi)
  below := hs.below

/-- The window does not move for a position that is still in it. -/
theorem topFor_of_lt {pos : ℕ} (hw : 0 < w) (hp : page.pos = top * w + pos) (hlt : pos < h * w) :
    topFor w h top page = top := by
  have hrow : page.pos / w < top + h := by
    rw [Nat.div_lt_iff_lt_mul hw, Nat.add_mul, hp]
    exact Nat.add_lt_add_left hlt _
  exact Nat.max_eq_left (by omega)

/-- Settling shows the page again: everything in view moves up, and the row that comes into view
is one that nothing was written to. -/
theorem settle (hw : 0 < w) (hh : 0 < h) (hpos : page.pos = top * w + screen.pos)
    (hlt : screen.pos < (h + 1) * w)
    (hwindow : ∀ i, i < h * w → screen.cell i = page.cell (top * w + i))
    (hbelow : ∀ p, (top + h) * w ≤ p → page.cell p = blank) :
    Shows w h blank (topFor w h top page) (screen.settle w h blank) page := by
  unfold Screen.settle
  by_cases hin : screen.pos < h * w
  · rw [if_pos hin, topFor_of_lt hw hpos hin]
    exact ⟨hin, hpos, hwindow, hbelow⟩
  · have hle : h * w ≤ screen.pos := Nat.le_of_not_lt hin
    have hmul : (h + 1) * w = h * w + w := Nat.succ_mul h w
    have htopmul : (top + 1) * w = top * w + w := Nat.succ_mul top w
    have hfull : w ≤ h * w := Nat.le_mul_of_pos_left w hh
    have hrow : page.pos / w = top + h := by
      have hsplit : page.pos = (screen.pos - h * w) + (top + h) * w := by
        rw [hpos, Nat.add_mul]
        omega
      rw [hsplit, Nat.add_mul_div_right _ _ hw, Nat.div_eq_of_lt (by omega), Nat.zero_add]
    have htop : topFor w h top page = top + 1 := by
      unfold topFor
      rw [hrow]
      omega
    rw [if_neg hin, htop]
    constructor
    case pos_lt => change screen.pos - w < h * w; omega
    case pos_eq =>
      change page.pos = (top + 1) * w + (screen.pos - w)
      omega
    case window =>
      intro i hi
      change (if i + w < h * w then screen.cell (i + w) else blank) = page.cell ((top + 1) * w + i)
      split
      · next hlt' =>
        rw [hwindow _ hlt']
        congr 1
        omega
      · refine (hbelow _ ?_).symm
        rw [Nat.add_mul]
        omega
    case below =>
      intro p hp
      refine hbelow p (le_trans (Nat.mul_le_mul_right w ?_) hp)
      omega

/-- Showing a page is kept when page and screen take one symbol. -/
theorem put (hw : 0 < w) (hh : 0 < h) (hs : Shows w h blank top screen page) (a : α) :
    Shows w h blank (topFor w h top (page.put a)) (screen.put w h blank a) (page.put a) := by
  have hlt := hs.pos_lt
  have hmul : (h + 1) * w = h * w + w := Nat.succ_mul h w
  refine settle hw hh ?_ ?_ (fun i hi => ?_) fun p hp => ?_
  · change page.pos + 1 = top * w + (screen.pos + 1)
    rw [hs.pos_eq]
    rfl
  · change screen.pos + 1 < (h + 1) * w
    omega
  · change Function.update screen.cell screen.pos a i =
      Function.update page.cell page.pos a (top * w + i)
    by_cases hi' : i = screen.pos
    · rw [hi', ← hs.pos_eq, Function.update_self, Function.update_self]
    · rw [Function.update_of_ne hi', Function.update_of_ne, hs.window i hi]
      rw [hs.pos_eq]
      omega
  · have hne : p ≠ page.pos := by
      rw [Nat.add_mul] at hp
      rw [hs.pos_eq]
      omega
    exact (Function.update_of_ne hne a page.cell).trans (hs.below p hp)

/-- Showing a page is kept when page and screen start a new line. -/
theorem newline (hw : 0 < w) (hh : 0 < h) (hs : Shows w h blank top screen page) :
    Shows w h blank (topFor w h top (page.newline w)) (screen.newline w h blank)
      (page.newline w) := by
  have hrow : screen.pos / w + 1 ≤ h :=
    (Nat.div_lt_iff_lt_mul hw).mpr hs.pos_lt
  have hmul : (h + 1) * w = h * w + w := Nat.succ_mul h w
  have hle : (screen.pos / w + 1) * w ≤ h * w := Nat.mul_le_mul_right w hrow
  refine settle hw hh ?_ ?_ hs.window hs.below
  · change (page.pos / w + 1) * w = top * w + (screen.pos / w + 1) * w
    rw [hs.pos_eq, Nat.add_comm (top * w), Nat.add_mul_div_right _ _ hw, ← Nat.add_mul]
    congr 1
    omega
  · change (screen.pos / w + 1) * w < (h + 1) * w
    omega

/-- The cursor moves inside the screen. -/
theorem seek {pos : ℕ} (hs : Shows w h blank top screen page) (hpos : pos < h * w) :
    Shows w h blank top ⟨screen.cell, pos⟩ (page.seek (top * w + pos)) :=
  ⟨hpos, rfl, hs.window, hs.below⟩

/-- The cell before the cursor becomes blank. -/
theorem erase (hs : Shows w h blank top screen page) (hpos : 0 < screen.pos) :
    Shows w h blank top
      ⟨Function.update screen.cell (screen.pos - 1) blank, screen.pos - 1⟩ (page.erase blank) := by
  have hlt := hs.pos_lt
  have heq := hs.pos_eq
  refine ⟨?_, ?_, fun i hi => ?_, fun p hp => ?_⟩
  · change screen.pos - 1 < h * w
    omega
  · change page.pos - 1 = top * w + (screen.pos - 1)
    omega
  · change Function.update screen.cell (screen.pos - 1) blank i =
      Function.update page.cell (page.pos - 1) blank (top * w + i)
    by_cases hi' : i = screen.pos - 1
    · rw [hi', show page.pos - 1 = top * w + (screen.pos - 1) by omega, Function.update_self,
        Function.update_self]
    · rw [Function.update_of_ne hi', Function.update_of_ne (by omega), hs.window i hi]
  · change Function.update page.cell (page.pos - 1) blank p = blank
    rw [Nat.add_mul] at hp
    rw [Function.update_of_ne (by omega)]
    exact hs.below p (by rw [Nat.add_mul]; exact hp)

end Shows

end ScrollPage
