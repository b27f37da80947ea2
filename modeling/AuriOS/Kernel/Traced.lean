import AuriOS.Kernel.Colours

/-!
# Where characters go

The terminal beside a record of the places where it put characters.  Places are those of a page
without end, in rows of 80 cells, of which the screen shows 25; a cleared screen is a fresh part of
it.

* `Trace.putchar`: one byte through the parser and the terminal, and what it adds to the record;
* `Trace.printed`: text and colour sequences go to the places that their characters alone determine
  (`placed`), and the cursor follows them;
* `Trace.Keeps`: every other place that stays in view keeps what it shows.
-/

namespace AuriOS

open Program ScrollPage

/-! ### Places of a text -/

/-- The place behind a character. -/
def advance (q : ℕ) (c : Byte) : ℕ := if c = byte '\n' then (q / vgaWidth + 1) * vgaWidth else q + 1

/-- The places of the characters of a text, the first of them on `q`; a newline has none. -/
def placed : ℕ → List Byte → List ℕ
  | _, [] => []
  | q, c :: text => (if c = byte '\n' then [] else [q]) ++ placed (advance q c) text

/-- How many newlines a text begins with. -/
def newlines (text : List Byte) : ℕ := (text.takeWhile (· = byte '\n')).length

section Places

variable {q n : ℕ} {c : Byte} {text : List Byte}

/-- A newline goes to the start of the next row. -/
theorem advance_newline (q : ℕ) : advance q (byte '\n') = (q / vgaWidth + 1) * vgaWidth :=
  if_pos rfl

/-- Every other character goes one place further. -/
theorem advance_of_ne (q : ℕ) (hc : c ≠ byte '\n') : advance q c = q + 1 := if_neg hc

/-- Whole rows above make no difference to the place behind a character. -/
theorem advance_add (n q : ℕ) (c : Byte) :
    advance (n * vgaWidth + q) c = n * vgaWidth + advance q c := by
  unfold advance
  split
  · rw [Nat.add_comm (n * vgaWidth), Nat.add_mul_div_right _ _ (by decide), Nat.add_right_comm,
      Nat.add_mul, Nat.add_comm]
  · exact Nat.add_assoc _ _ _

/-- Every character goes forward. -/
theorem lt_advance (q : ℕ) (c : Byte) : q < advance q c := by
  unfold advance
  split
  · have hdiv := Nat.div_add_mod' q vgaWidth
    have hmod : q % vgaWidth < vgaWidth := Nat.mod_lt _ (by decide)
    rw [Nat.succ_mul]
    omega
  · exact Nat.lt_succ_self q

/-- The places of two texts follow each other. -/
theorem placed_append (q : ℕ) (a b : List Byte) :
    placed q (a ++ b) = placed q a ++ placed (a.foldl advance q) b := by
  induction a generalizing q with
  | nil => rfl
  | cons c a ih => rw [List.cons_append, placed, placed, ih, List.append_assoc, List.foldl_cons]

/-- A text goes to where the cursor is, or behind. -/
theorem le_of_mem_placed (h : n ∈ placed q text) : q ≤ n := by
  induction text generalizing q with
  | nil => exact absurd h List.not_mem_nil
  | cons c text ih =>
    rcases List.mem_append.mp h with hfirst | hrest
    · split at hfirst
      · exact absurd hfirst List.not_mem_nil
      · exact (List.mem_singleton.mp hfirst).ge
    · exact (Nat.le_of_lt (lt_advance q c)).trans (ih hrest)

/-- One more newline in front is one more to begin with. -/
theorem newlines_newline (text : List Byte) : newlines (byte '\n' :: text) = newlines text + 1 :=
  rfl

/-- A text that begins otherwise begins with no newline. -/
theorem newlines_of_ne (hc : c ≠ byte '\n') (text : List Byte) : newlines (c :: text) = 0 := by
  unfold newlines
  rw [List.takeWhile_cons_of_neg (by simpa using hc)]
  rfl

/-- A text from the beginning of a row on: its first character goes as many rows down as there are
newlines before it, and nothing goes before that. -/
theorem placed_row (row : ℕ) (h : ∃ c ∈ text, c ≠ byte '\n') :
    (row + newlines text) * vgaWidth ∈ placed (row * vgaWidth) text ∧
      ∀ n ∈ placed (row * vgaWidth) text, (row + newlines text) * vgaWidth ≤ n := by
  induction text generalizing row with
  | nil => exact absurd h (fun ⟨_, hc, _⟩ => List.not_mem_nil hc)
  | cons c text ih =>
    by_cases hc : c = byte '\n'
    · obtain ⟨c', hc', hne⟩ := h
      have hrest : ∃ c ∈ text, c ≠ byte '\n' :=
        ⟨c', (List.mem_cons.mp hc').resolve_left fun he => hne (he.trans hc), hne⟩
      have hnext : advance (row * vgaWidth) c = (row + 1) * vgaWidth := by
        rw [hc, advance_newline, Nat.mul_div_left _ (by decide)]
      have ih := ih (row + 1) hrest
      rw [hc, newlines_newline, placed, if_pos rfl, List.nil_append, ← hc, hnext,
        Nat.add_comm (newlines text), ← Nat.add_assoc]
      exact ih
    · rw [newlines_of_ne hc, Nat.add_zero]
      refine ⟨?_, fun n hn => le_of_mem_placed hn⟩
      rw [placed, if_neg hc]
      exact List.mem_cons_self

end Places

/-! ### The record -/

/-- A console, the rows of the page above its screen, and where characters were put so far. -/
structure Trace where
  console : Console
  top : ℕ
  places : List ℕ

/-- The place of the cursor. -/
def Trace.place (t : Trace) : ℕ := t.top * vgaWidth + t.console.terminal.pos

/-- The parser passes the byte on to the terminal. -/
def Console.Passes (k : Console) (c : Byte) : Prop := k.currentState = .normal ∧ c ≠ escByte

/-- The terminal scrolls after this character. -/
def Terminal.Scrolls (t : Terminal) (c : Byte) : Prop :=
  t.row + 1 = vgaHeight ∧ (c = byte '\n' ∨ t.column + 1 = vgaWidth)

instance (k : Console) (c : Byte) : Decidable (k.Passes c) := inferInstanceAs (Decidable (_ ∧ _))
instance (t : Terminal) (c : Byte) : Decidable (t.Scrolls c) := inferInstanceAs (Decidable (_ ∧ _))

/-- `terminal_putchar`, recorded. -/
def Trace.putchar (t : Trace) (c : Byte) : Except Fault Trace := do
  let k ← terminalPutchar t.console c
  pure {
    console := k
    top := if t.console.Passes c ∧ t.console.terminal.Scrolls c then t.top + 1 else t.top
    places := if t.console.Passes c ∧ c ≠ byte '\n' then t.places ++ [t.place] else t.places }

/-- The characters are printed one after the other. -/
def Trace.putchars (t : Trace) (text : List Byte) : Except Fault Trace :=
  text.foldlM Trace.putchar t

/-- `terminal_clear`: nothing that was on the screen is in view any more. -/
def Trace.clear (t : Trace) : Trace :=
  { t with console := t.console.onTerminal terminalClear, top := t.top + vgaHeight }

/-- What the screen shows at a place in view. -/
def Trace.cell (t : Trace) (q : ℕ) : BitVec 16 :=
  t.console.terminal.buffer (q - t.top * vgaWidth)

section Trace

variable {t t' : Trace} {c : Byte} {text : List Byte}

/-- A text in two parts is printed part by part. -/
theorem Trace.putchars_append (t : Trace) (a b : List Byte) :
    t.putchars (a ++ b) = t.putchars a >>= fun t => t.putchars b :=
  List.foldlM_append

/-- The record does not interfere. -/
theorem Trace.putchars_console (h : t.putchars text = .ok t') :
    AuriOS.putchars t.console text = .ok t'.console := by
  induction text generalizing t with
  | nil =>
    obtain rfl := Except.ok.inj h
    rfl
  | cons c text ih =>
    unfold Trace.putchars at h
    rw [List.foldlM_cons, except_bind_eq_ok] at h
    obtain ⟨t₁, hfirst, hrest⟩ := h
    unfold Trace.putchar at hfirst
    rw [except_bind_eq_ok] at hfirst
    obtain ⟨k, hk, hpure⟩ := hfirst
    obtain rfl := Except.ok.inj hpure
    unfold AuriOS.putchars
    rw [List.foldlM_cons, hk, ok_bind]
    exact ih hrest

end Trace

/-! ### One character -/

/-- The cursor has no parser state open and is on the screen. -/
structure Trace.Ready (t : Trace) : Prop where
  normal : t.console.currentState = .normal
  onScreen : t.console.terminal.OnScreen

/-- The cells of a terminal once a character was put to it, before it scrolls. -/
def Terminal.written (t : Terminal) (c : Byte) : ℕ → BitVec 16 :=
  if c = byte '\n' then t.buffer else Function.update t.buffer t.pos (vgaEntry c t.color)

section Step

variable {t t' : Trace} {term : Terminal} {c : Byte}

/-- A character changes the screen as the traced place says. -/
theorem putcharRaw_agrees (h : term.OnScreen) (c : Byte) :
    Screen.Agrees vgaWidth vgaHeight
      (Screen.settle vgaWidth vgaHeight term.blank ⟨term.written c, advance term.pos c⟩)
      (terminalPutcharRaw c term).screen := by
  unfold Terminal.written advance
  by_cases hc : c = byte '\n'
  · rw [if_pos hc, if_pos hc, hc]
    exact terminalPutcharRaw_newline h
  · rw [if_neg hc, if_neg hc]
    exact terminalPutcharRaw_put h hc

/-- The terminal scrolls where the next place is not on the screen. -/
theorem scrolls_iff (h : term.OnScreen) (c : Byte) :
    term.Scrolls c ↔ ¬ advance term.pos c < vgaHeight * vgaWidth := by
  have hrow : term.row < 25 := h.row_lt
  have hcolumn : term.column < 80 := h.column_lt
  unfold Terminal.Scrolls
  change term.row + 1 = 25 ∧ (c = byte '\n' ∨ term.column + 1 = 80) ↔ ¬ advance term.pos c < 25 * 80
  by_cases hc : c = byte '\n'
  · rw [hc, advance_newline, Terminal.pos, place_div h.column_lt, and_iff_left (Or.inl rfl)]
    change _ ↔ ¬ (term.row + 1) * 80 < _
    omega
  · rw [advance_of_ne _ hc, or_iff_right hc]
    change _ ↔ ¬ term.row * 80 + term.column + 1 < _
    omega

/-- The row that is lost to scrolling is one more row above the screen. -/
theorem putcharRaw_pos (h : term.OnScreen) (c : Byte) :
    (if term.Scrolls c then vgaWidth else 0) + (terminalPutcharRaw c term).pos =
      advance term.pos c := by
  have hpos := (putcharRaw_agrees h c).pos_eq
  change (terminalPutcharRaw c term).pos = _ at hpos
  rw [hpos]
  unfold Screen.settle
  by_cases hscrolls : term.Scrolls c
  · have hge : ¬ advance term.pos c < vgaHeight * vgaWidth := (scrolls_iff h c).mp hscrolls
    have hfull : vgaWidth ≤ vgaHeight * vgaWidth := by decide
    rw [if_pos hscrolls, if_neg hge]
    exact Nat.add_sub_cancel' (hfull.trans (Nat.le_of_not_lt hge))
  · rw [if_neg hscrolls, if_pos (not_not.mp (mt (scrolls_iff h c).mpr hscrolls)), Nat.zero_add]

/-- A cell that stays on the screen moves up with its row. -/
theorem putcharRaw_buffer (h : term.OnScreen) (c : Byte) {i : ℕ}
    (hi : (if term.Scrolls c then vgaWidth else 0) + i < vgaHeight * vgaWidth) :
    (terminalPutcharRaw c term).buffer i =
      term.written c ((if term.Scrolls c then vgaWidth else 0) + i) := by
  have hcell := (putcharRaw_agrees h c).cell_eq i (lt_of_le_of_lt (Nat.le_add_left _ _) hi)
  change (terminalPutcharRaw c term).buffer i = _ at hcell
  rw [hcell]
  unfold Screen.settle
  by_cases hscrolls : term.Scrolls c
  · rw [if_pos hscrolls] at hi ⊢
    rw [if_neg ((scrolls_iff h c).mp hscrolls)]
    change (if i + vgaWidth < vgaHeight * vgaWidth then term.written c (i + vgaWidth) else _) = _
    rw [Nat.add_comm i, if_pos hi]
  · rw [if_neg hscrolls, if_pos (not_not.mp (mt (scrolls_iff h c).mpr hscrolls)), Nat.zero_add]

/-- From `t` to `t'` some characters went to these places, and every other place that was in view
and still is shows what it showed. -/
structure Trace.Keeps (t t' : Trace) (places : List ℕ) : Prop where
  top_le : t.top ≤ t'.top
  places_eq : t'.places = t.places ++ places
  cell_eq : ∀ q, t'.top * vgaWidth ≤ q → q < (t.top + vgaHeight) * vgaWidth → q ∉ places →
    t'.cell q = t.cell q

/-- Nothing printed keeps everything in view. -/
theorem Trace.Keeps.refl (t : Trace) : t.Keeps t [] :=
  ⟨Nat.le_refl _, (List.append_nil _).symm, fun _ _ _ _ => rfl⟩

/-- What two texts keep, they keep in sequence. -/
theorem Trace.Keeps.trans {t'' : Trace} {a b : List ℕ} (h : t.Keeps t' a) (h' : t'.Keeps t'' b) :
    t.Keeps t'' (a ++ b) := by
  refine ⟨h.top_le.trans h'.top_le, ?_, fun q hle hlt hnot => ?_⟩
  · rw [h'.places_eq, h.places_eq, List.append_assoc]
  · have hbefore : t'.top * vgaWidth ≤ q := (Nat.mul_le_mul_right _ h'.top_le).trans hle
    have hbehind : q < (t'.top + vgaHeight) * vgaWidth :=
      hlt.trans_le (Nat.mul_le_mul_right _ (Nat.add_le_add_right h.top_le _))
    rw [h'.cell_eq q hle hbehind fun hq => hnot (List.mem_append_right _ hq),
      h.cell_eq q hbefore hlt fun hq => hnot (List.mem_append_left _ hq)]

/-- A character that the parser passes on. -/
theorem Trace.putchar_ready (h : t.Ready) (hc : c ≠ escByte) :
    ∃ t', t.putchar c = .ok t' ∧ t'.Ready ∧ t'.place = advance t.place c ∧
      t.Keeps t' (if c = byte '\n' then [] else [t.place]) := by
  have hpasses : t.console.Passes c := ⟨h.normal, hc⟩
  have hpos := putcharRaw_pos h.onScreen c
  have hbuffer := fun i => putcharRaw_buffer h.onScreen c (i := i)
  have htop : (if t.console.Passes c ∧ t.console.terminal.Scrolls c then t.top + 1 else t.top) *
      vgaWidth = t.top * vgaWidth + if t.console.terminal.Scrolls c then vgaWidth else 0 := by
    by_cases hscrolls : t.console.terminal.Scrolls c
    · rw [if_pos ⟨hpasses, hscrolls⟩, if_pos hscrolls, Nat.succ_mul]
    · rw [if_neg fun hboth => hscrolls hboth.2, if_neg hscrolls, Nat.add_zero]
  have hrun : t.putchar c = .ok {
      console := t.console.onTerminal (terminalPutcharRaw c)
      top := if t.console.Passes c ∧ t.console.terminal.Scrolls c then t.top + 1 else t.top
      places :=
        if t.console.Passes c ∧ c ≠ byte '\n' then t.places ++ [t.place] else t.places } := by
    unfold Trace.putchar
    rw [terminalPutchar_normal h.normal hc, ok_bind]
    rfl
  refine ⟨_, hrun, ⟨h.normal, (terminalPutcharRaw_valid h.onScreen c).toOnScreen⟩, ?_, ?_⟩
  · unfold Trace.place
    dsimp only
    rw [htop, advance_add, ← hpos, ← Nat.add_assoc]
    rfl
  · refine ⟨?_, ?_, fun q hle hlt hnot => ?_⟩
    · dsimp only
      split
      · exact Nat.le_succ _
      · exact Nat.le_refl _
    · dsimp only
      by_cases hline : c = byte '\n'
      · rw [if_pos hline, if_neg fun hboth => hboth.2 hline, List.append_nil]
      · rw [if_neg hline, if_pos ⟨hpasses, hline⟩]
    · unfold Trace.cell
      dsimp only at hle ⊢
      rw [htop] at hle ⊢
      rw [Nat.add_mul] at hlt
      generalize (if t.console.terminal.Scrolls c then vgaWidth else 0) = scrolled at hle hbuffer ⊢
      have hplace : scrolled + (q - (t.top * vgaWidth + scrolled)) = q - t.top * vgaWidth := by
        omega
      have hcell := hbuffer (q - (t.top * vgaWidth + scrolled)) (by omega)
      rw [hplace] at hcell
      refine hcell.trans ?_
      unfold Terminal.written
      split
      · rfl
      · next hline =>
        rw [if_neg hline, List.mem_singleton] at hnot
        refine Function.update_of_ne (fun heq => hnot ?_) _ _
        unfold Trace.place
        omega

end Step

/-! ### Text and colour sequences -/

/-- The characters of what is printed that are put to the screen, and the newlines. -/
def Printed.visible : Printed → List Byte
  | .text bytes _ => bytes
  | .sgr _ _ _ _ => []

section Printed

variable {t : Trace} {c : Byte}

/-- A text is printed from its first character on. -/
theorem Trace.putchars_cons {t₁ : Trace} (h : t.putchar c = .ok t₁) (text : List Byte) :
    t.putchars (c :: text) = t₁.putchars text := by
  unfold Trace.putchars
  rw [List.foldlM_cons, h, ok_bind]

/-- Inside an escape sequence nothing is put anywhere. -/
theorem Trace.putchar_inside {k : Console} (h : t.console.currentState ≠ .normal)
    (hk : terminalPutchar t.console c = .ok k) : t.putchar c = .ok { t with console := k } := by
  have hpasses : ¬ t.console.Passes c := fun hp => h hp.1
  unfold Trace.putchar
  rw [hk, ok_bind, if_neg fun hp => hpasses hp.1, if_neg fun hp => hpasses hp.1]
  rfl

/-- Parameters leave the parser inside the sequence. -/
theorem Trace.parameters {bytes : List Byte} (hbytes : ∀ c ∈ bytes, IsDigit c ∨ c = byte ';')
    (t : Trace) (k : Console) (params : Vector ℕ maxParams) {paramIndex : ℕ}
    (hindex : paramIndex < maxParams) : ∃ params' paramIndex', paramIndex' < maxParams ∧
      { t with console := k.inState (.bracket params paramIndex) }.putchars bytes =
        .ok { t with console := k.inState (.bracket params' paramIndex') } := by
  induction bytes generalizing params paramIndex with
  | nil => exact ⟨params, paramIndex, hindex, rfl⟩
  | cons c bytes ih =>
    obtain ⟨params₁, paramIndex₁, hindex₁, hstep⟩ : ∃ params₁ paramIndex₁, paramIndex₁ < maxParams ∧
        terminalPutchar (k.inState (.bracket params paramIndex)) c =
          .ok (k.inState (.bracket params₁ paramIndex₁)) := by
      change ∃ params₁ paramIndex₁, paramIndex₁ < maxParams ∧
        processBracket (k.inState (.bracket params paramIndex)) params paramIndex c = _
      unfold processBracket
      rcases hbytes c List.mem_cons_self with hdigit | rfl
      · have hdigit : byte '0' ≤ c ∧ c ≤ byte '9' := hdigit
        refine ⟨params.set paramIndex (satAdd (satMul params[paramIndex] 10)
          (c.toNat - (byte '0').toNat)), paramIndex, hindex, ?_⟩
        rw [if_pos hdigit, checkedSub_ok hdigit.1, ok_bind, getParam_ok params hindex, ok_bind,
          setParam_ok params hindex, ok_bind]
        rfl
      · have hsum : paramIndex + 1 < 2 ^ 32 := lt_of_le_of_lt hindex (by decide)
        refine ⟨params, (paramIndex + 1) % maxParams, Nat.mod_lt _ (by decide), ?_⟩
        rw [if_neg (by decide), if_neg (by decide), if_neg (by decide), if_pos rfl,
          checkedAdd_ok hsum, ok_bind]
        rfl
    obtain ⟨params', paramIndex', hindex', hrest⟩ :=
      ih (fun c hc => hbytes c (List.mem_cons_of_mem _ hc)) params₁ hindex₁
    refine ⟨params', paramIndex', hindex', ?_⟩
    rw [Trace.putchars_cons (Trace.putchar_inside (fun he => State.noConfusion he) hstep)]
    exact hrest

/-- The parameters of a sequence are digits and semicolons. -/
theorem parameterBytes_bytes {p : List Byte} {rest : List (List Byte)}
    (hdigits : ∀ q ∈ p :: rest, ∀ c ∈ q, IsDigit c) :
    ∀ c ∈ parameterBytes p rest, IsDigit c ∨ c = byte ';' := by
  intro c hc
  unfold parameterBytes at hc
  rcases List.mem_append.mp hc with hc | hc
  · exact Or.inl (hdigits p List.mem_cons_self c hc)
  · obtain ⟨q, hq, hc⟩ := List.mem_flatMap.mp hc
    rcases List.mem_cons.mp hc with rfl | hc
    · exact Or.inr rfl
    · exact Or.inl (hdigits q (List.mem_cons_of_mem _ hq) c hc)

/-- A colour sequence puts nothing anywhere. -/
theorem Trace.sequence (h : t.Ready) {p : List Byte} {rest : List (List Byte)}
    (hdigits : ∀ q ∈ p :: rest, ∀ c ∈ q, IsDigit c) :
    ∃ t', t.putchars (controlSequence p rest (byte 'm')) = .ok t' ∧ t'.Ready ∧
      t'.place = t.place ∧ t.Keeps t' [] := by
  have hesc : t.putchar escByte = .ok { t with console := t.console.inState .escape } := by
    have hpasses : ¬ t.console.Passes escByte := fun hp => hp.2 rfl
    have hrun : terminalPutchar t.console escByte = .ok (t.console.inState .escape) := by
      unfold terminalPutchar ansiProcessChar
      rw [h.normal]
      rfl
    unfold Trace.putchar
    rw [hrun, ok_bind, if_neg fun hp => hpasses hp.1, if_neg fun hp => hpasses hp.1]
    rfl
  have hopen : { t with console := t.console.inState .escape }.putchar (byte '[') =
      .ok { t with console := t.console.inState (.bracket (Vector.replicate maxParams 0) 0) } :=
    Trace.putchar_inside (fun he => State.noConfusion he) rfl
  obtain ⟨params, paramIndex, hindex, hparams⟩ :=
    Trace.parameters (parameterBytes_bytes hdigits) t t.console (Vector.replicate maxParams 0)
      (show 0 < maxParams by decide)
  obtain ⟨color, hcolor⟩ :=
    drainParams_ok params (i := 0) (n := paramIndex + 1) (by omega) t.console.activeColor
  have hfinal : terminalPutchar (t.console.inState (.bracket params paramIndex)) (byte 'm') =
      .ok (({ t.console with activeColor := color }.onTerminal
        (terminalSetcolor color.toVga)).inState .normal) := by
    change processBracket _ params paramIndex (byte 'm') = _
    unfold processBracket
    rw [if_neg (by decide), if_neg (by decide), if_neg (by decide), if_neg (by decide), if_pos rfl]
    change (drainParams params 0 (paramIndex + 1) t.console.activeColor >>= _) = _
    rw [hcolor, ok_bind]
    rfl
  have hlast := Trace.putchar_inside
    (t := { t with console := t.console.inState (.bracket params paramIndex) })
    (fun he => State.noConfusion he) hfinal
  refine ⟨{ t with console := ({ t.console with activeColor := color }.onTerminal
    (terminalSetcolor color.toVga)).inState .normal }, ?_, ⟨rfl, ?_⟩, ?_,
    ⟨Nat.le_refl t.top, (List.append_nil t.places).symm, fun q _ _ _ => ?_⟩⟩
  · unfold controlSequence
    rw [List.cons_append, List.cons_append, Trace.putchars_cons hesc, Trace.putchars_cons hopen,
      Trace.putchars_append, hparams, ok_bind, Trace.putchars_cons hlast]
    rfl
  · exact ⟨h.onScreen.row_lt, h.onScreen.column_lt, h.onScreen.stores_lt⟩
  · unfold Trace.place Terminal.pos
    rfl
  · unfold Trace.cell
    rfl

/-- A text without an escape byte. -/
theorem Trace.text (h : t.Ready) {text : List Byte} (hesc : escByte ∉ text) :
    ∃ t', t.putchars text = .ok t' ∧ t'.Ready ∧ t'.place = text.foldl advance t.place ∧
      t.Keeps t' (placed t.place text) := by
  induction text generalizing t with
  | nil => exact ⟨t, rfl, h, rfl, .refl t⟩
  | cons c text ih =>
    obtain ⟨t₁, hrun₁, h₁, hplace₁, hkeeps₁⟩ :=
      Trace.putchar_ready h (List.ne_of_not_mem_cons hesc).symm
    obtain ⟨t', hrun, h', hplace, hkeeps⟩ := ih h₁ (List.not_mem_of_not_mem_cons hesc)
    rw [hplace₁] at hplace hkeeps
    refine ⟨t', ?_, h', hplace, hkeeps₁.trans hkeeps⟩
    rw [Trace.putchars_cons hrun₁, hrun]

/-- Text and colour sequences: the characters decide where they go. -/
theorem Trace.printed (h : t.Ready) (items : List Printed) :
    ∃ t', t.putchars (items.flatMap Printed.bytes) = .ok t' ∧ t'.Ready ∧
      t'.place = (items.flatMap Printed.visible).foldl advance t.place ∧
      t.Keeps t' (placed t.place (items.flatMap Printed.visible)) := by
  induction items generalizing t with
  | nil => exact ⟨t, rfl, h, rfl, .refl t⟩
  | cons item items ih =>
    obtain ⟨t₁, hrun₁, h₁, hplace₁, hkeeps₁⟩ : ∃ t', t.putchars item.bytes = .ok t' ∧ t'.Ready ∧
        t'.place = item.visible.foldl advance t.place ∧
          t.Keeps t' (placed t.place item.visible) := by
      cases item with
      | text bytes plain => exact Trace.text h plain
      | sgr p rest digits few => exact Trace.sequence h digits
    obtain ⟨t', hrun, h', hplace, hkeeps⟩ := ih h₁
    rw [hplace₁] at hplace hkeeps
    refine ⟨t', ?_, h', ?_, ?_⟩
    · rw [List.flatMap_cons, Trace.putchars_append, hrun₁, ok_bind, hrun]
    · rw [List.flatMap_cons, List.foldl_append, hplace]
    · rw [List.flatMap_cons, placed_append]
      exact hkeeps₁.trans hkeeps

end Printed

end AuriOS
