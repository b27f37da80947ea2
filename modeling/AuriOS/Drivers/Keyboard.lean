import AuriOS.Kernel.Execution

/-!
# The keyboard driver

`keyboard_callback` of `keyboard.c`: one scan code of set 1 at a time, with a flag for Shift, a
flag for Ctrl and a flag for the prefix `0xE0`.

* `keyboardCallback`: what a scan code does to the flags, and the routine of the shell it calls;
* `delivered_known`: the calls that can reach the shell;
* `flagsAfter_eq`: after any presses and releases a flag says whether the last event of its two keys
  was a press;
* `keyboard_modifiers`: so it says whether one of them is down unless the last event released one
  while the other stayed down.
-/

namespace AuriOS

/-- `scancode_to_ascii`; what the initializer leaves out is `0`. -/
def scancodeToAscii : List Byte :=
  [0, 0] ++ ['1', '2', '3', '4', '5', '6', '7', '8', '9', '0', '-', '='].map byte ++ [0] ++
  [0] ++ ['q', 'w', 'e', 'r', 't', 'y', 'u', 'i', 'o', 'p', '[', ']', '\n'].map byte ++
  [0] ++ ['a', 's', 'd', 'f', 'g', 'h', 'j', 'k', 'l', ';', '\x27', '\x60'].map byte ++
  [0] ++ ['\x5c', 'z', 'x', 'c', 'v', 'b', 'n', 'm', ',', '.', '/'].map byte ++ [0] ++
  [byte '*', 0, byte ' ']

/-- `scancode_to_ascii_shift`. -/
def scancodeToAsciiShift : List Byte :=
  [0, 0] ++ ['!', '@', '#', '$', '%', '^', '&', '*', '(', ')', '_', '+'].map byte ++ [0] ++
  [0] ++ ['Q', 'W', 'E', 'R', 'T', 'Y', 'U', 'I', 'O', 'P', '\x7b', '\x7d', '\n'].map byte ++
  [0] ++ ['A', 'S', 'D', 'F', 'G', 'H', 'J', 'K', 'L', ':', '\x22', '~'].map byte ++
  [0] ++ ['|', 'Z', 'X', 'C', 'V', 'B', 'N', 'M', '<', '>', '?'].map byte ++ [0] ++
  [byte '*', 0, byte ' ']

/-- The static flags of the driver. -/
structure Keyboard where
  shiftPressed : Bool
  ctrlPressed : Bool
  extended : Bool
  deriving DecidableEq

/-- The flags of the driver at the boot. -/
def Keyboard.initial : Keyboard := ⟨false, false, false⟩

/-- A call of the shell. -/
inductive KeyCall
  | handleKey (c : Byte)
  /-- `1` is Up and `2` is Down. -/
  | history (a : ℤ)
  | bufferPosDecrement
  | bufferPosIncrement
  deriving DecidableEq

/-- `scancode_to_ascii[scancode]`, from the table of the Shift flag. -/
def Keyboard.ascii (kb : Keyboard) (scancode : Byte) : Byte :=
  (if kb.shiftPressed then scancodeToAsciiShift else scancodeToAscii).getD scancode.toNat 0

/-- `keyboard_callback` for this byte of port `0x60`. -/
def keyboardCallback (kb : Keyboard) (scancode : Byte) : Keyboard × Option KeyCall :=
  if scancode = 0xE0 then ({ kb with extended := true }, none)
  else
    let wasExtended := kb.extended
    let kb := { kb with extended := false }
    if wasExtended ∧ scancode = 0x48 then (kb, some (.history 1))
    else if wasExtended ∧ scancode = 0x50 then (kb, some (.history 2))
    else if wasExtended ∧ scancode = 0x4B then (kb, some .bufferPosDecrement)
    else if wasExtended ∧ scancode = 0x4D then (kb, some .bufferPosIncrement)
    else if scancode = 0x2A ∨ scancode = 0x36 then ({ kb with shiftPressed := true }, none)
    else if scancode = 0xAA ∨ scancode = 0xB6 then ({ kb with shiftPressed := false }, none)
    else if scancode = 0x1D then ({ kb with ctrlPressed := true }, none)
    else if scancode = 0x9D then ({ kb with ctrlPressed := false }, none)
    else if scancode &&& 0x80 ≠ 0 then (kb, none)
    else if kb.ctrlPressed ∧ scancode = 0x26 then (kb, some (.handleKey formFeed))
    else if scancode = 0x0E then (kb, some (.handleKey (byte '\x08')))
    else if scancode = 0x0F then (kb, some (.handleKey (byte '\t')))
    else if kb.ascii scancode ≠ 0 then (kb, some (.handleKey (kb.ascii scancode)))
    else (kb, none)

/-! ### What reaches the shell -/

/-- A character that shows on the screen. -/
def Printable (c : Byte) : Prop := 0x20 ≤ c.toNat ∧ c.toNat ≤ 0x7E

/-- Some scan code makes the driver call this, with some flags set. -/
def KeyCall.Delivered (call : KeyCall) : Prop :=
  ∃ kb scancode, (keyboardCallback kb scancode).2 = some call

section Delivered

variable {kb : Keyboard} {call : KeyCall} {c : Byte}

/-- A scan code's character, where it has one, is in one of the two tables. -/
theorem ascii_mem (kb : Keyboard) (scancode : Byte) (h : kb.ascii scancode ≠ 0) :
    kb.ascii scancode ∈ scancodeToAscii ++ scancodeToAsciiShift := by
  have hget : ∀ table : List Byte, table.getD scancode.toNat 0 ≠ 0 →
      table.getD scancode.toNat 0 ∈ table := by
    intro table hne
    by_cases hlt : scancode.toNat < table.length
    · rw [List.getD_eq_getElem _ _ hlt]
      exact List.getElem_mem hlt
    · exact absurd (List.getD_eq_default _ _ (Nat.le_of_not_lt hlt)) hne
  unfold Keyboard.ascii at h ⊢
  by_cases hshift : kb.shiftPressed
  · rw [if_pos hshift] at h ⊢
    exact List.mem_append_right _ (hget _ h)
  · rw [if_neg hshift] at h ⊢
    exact List.mem_append_left _ (hget _ h)

/-- The tables hold printable characters and the newline of Enter. -/
theorem ascii_cases {scancode : Byte} (h : kb.ascii scancode ≠ 0) :
    kb.ascii scancode = byte '\n' ∨ Printable (kb.ascii scancode) := by
  let passes (c : Byte) : Bool :=
    c == 0 || c == byte '\n' || (Nat.ble 0x20 c.toNat && Nat.ble c.toNat 0x7E)
  have hplain : scancodeToAscii.all passes = true := rfl
  have hshift : scancodeToAsciiShift.all passes = true := rfl
  have hpasses : passes (kb.ascii scancode) = true := by
    rcases List.mem_append.mp (ascii_mem kb scancode h) with hmem | hmem
    · exact List.all_eq_true.mp hplain _ hmem
    · exact List.all_eq_true.mp hshift _ hmem
  rw [Bool.or_eq_true, Bool.or_eq_true, Bool.and_eq_true, beq_iff_eq, beq_iff_eq, Nat.ble_eq,
    Nat.ble_eq] at hpasses
  rcases hpasses with (hzero | hnewline) | hprint
  · exact absurd hzero h
  · exact Or.inl hnewline
  · exact Or.inr hprint

/-- The calls that can reach the shell. -/
inductive KeyCall.Known : KeyCall → Prop
  | printable {c : Byte} (hc : Printable c) : Known (.handleKey c)
  | enter : Known (.handleKey (byte '\n'))
  | backspace : Known (.handleKey (byte '\x08'))
  | tab : Known (.handleKey (byte '\t'))
  | clear : Known (.handleKey formFeed)
  | up : Known (.history 1)
  | down : Known (.history 2)
  | left : Known .bufferPosDecrement
  | right : Known .bufferPosIncrement

/-- Every call that the driver makes is a known one. -/
theorem delivered_known (h : call.Delivered) : call.Known := by
  obtain ⟨kb, scancode, hcall⟩ := h
  have hnone : ∀ kb' : Keyboard, ((kb', none) : Keyboard × Option KeyCall).2 = some call →
      call.Known := fun _ he => nomatch he
  have hsome : ∀ (kb' : Keyboard) {known : KeyCall}, known.Known →
      ((kb', some known) : Keyboard × Option KeyCall).2 = some call → call.Known :=
    fun _ _ hknown he => Option.some.inj he ▸ hknown
  have hite : ∀ {p : Prop} [Decidable p] {x y : Keyboard × Option KeyCall},
      (p → x.2 = some call → call.Known) → (y.2 = some call → call.Known) →
      (if p then x else y).2 = some call → call.Known := by
    intro p _ x y hx hy he
    by_cases hp : p
    · exact hx hp (by rwa [if_pos hp] at he)
    · exact hy (by rwa [if_neg hp] at he)
  have hascii : ∀ kb' : Keyboard, kb'.ascii scancode ≠ 0 →
      KeyCall.Known (.handleKey (kb'.ascii scancode)) := by
    intro kb' hne
    rcases ascii_cases hne with hnewline | hprint
    · rw [hnewline]
      exact .enter
    · exact .printable hprint
  revert hcall
  unfold keyboardCallback
  refine hite (fun _ => hnone _) (hite (fun _ => hsome _ .up) (hite (fun _ => hsome _ .down)
    (hite (fun _ => hsome _ .left) (hite (fun _ => hsome _ .right) (hite (fun _ => hnone _)
    (hite (fun _ => hnone _) (hite (fun _ => hnone _) (hite (fun _ => hnone _)
    (hite (fun _ => hnone _) (hite (fun _ => hsome _ .clear) (hite (fun _ => hsome _ .backspace)
    (hite (fun _ => hsome _ .tab) (hite (fun hne => hsome _ (hascii _ hne)) (hnone _))))))))))))))

end Delivered

/-! ### The keys under the hands of the user -/

/-- The scan codes of the letter and the digit keys. -/
def characterKeys : List Byte :=
  [0x02, 0x03, 0x04, 0x05, 0x06, 0x07, 0x08, 0x09, 0x0A, 0x0B,
   0x10, 0x11, 0x12, 0x13, 0x14, 0x15, 0x16, 0x17, 0x18, 0x19,
   0x1E, 0x1F, 0x20, 0x21, 0x22, 0x23, 0x24, 0x25, 0x26,
   0x2C, 0x2D, 0x2E, 0x2F, 0x30, 0x31, 0x32]

/-- The keys that the driver distinguishes. -/
inductive PhysicalKey
  | leftShift
  | rightShift
  | leftCtrl
  | rightCtrl
  | character (scancode : { c : Byte // c ∈ characterKeys })
  deriving DecidableEq

/-- What a key does. -/
inductive KeyEvent
  | press (key : PhysicalKey)
  | release (key : PhysicalKey)

/-- The bytes the keyboard controller sends for an event. -/
def KeyEvent.scancodes : KeyEvent → List Byte
  | .press .leftShift => [0x2A]
  | .press .rightShift => [0x36]
  | .press .leftCtrl => [0x1D]
  | .press .rightCtrl => [0xE0, 0x1D]
  | .press (.character scancode) => [scancode]
  | .release .leftShift => [0xAA]
  | .release .rightShift => [0xB6]
  | .release .leftCtrl => [0x9D]
  | .release .rightCtrl => [0xE0, 0x9D]
  | .release (.character scancode) => [scancode ||| 0x80]

/-- The keys that are down after some events. -/
def keysDown (events : List KeyEvent) : Finset PhysicalKey :=
  events.foldl (fun down event => match event with
    | .press key => insert key down
    | .release key => down.erase key) ∅

/-- A key is only released after it was pressed. -/
def Possible (events : List KeyEvent) : Prop :=
  ∀ before key after, events = before ++ .release key :: after → key ∈ keysDown before

/-- The flags of the driver after some events. -/
def flagsAfter (events : List KeyEvent) : Keyboard :=
  (events.flatMap KeyEvent.scancodes).foldl (fun kb scancode => (keyboardCallback kb scancode).1)
    Keyboard.initial

/-- One of the two keys is down. -/
def OneDown (left right : PhysicalKey) (events : List KeyEvent) : Prop :=
  left ∈ keysDown events ∨ right ∈ keysDown events

/-- Neither of the two keys is released while the other one is down. -/
def ReleasedAlone (left right : PhysicalKey) (events : List KeyEvent) : Prop :=
  ∀ before key after, events = before ++ .release key :: after →
    (key = left → right ∉ keysDown before) ∧ (key = right → left ∉ keysDown before)

/-- What the driver makes of a letter or digit key pressed after some events is what the modifiers
that are down say. -/
def ModifiersPhysical (events : List KeyEvent) : Prop :=
  ∀ scancode ∈ characterKeys,
    ((keyboardCallback (flagsAfter events) scancode).2 = some (.handleKey formFeed) ↔
      scancode = 0x26 ∧ OneDown .leftCtrl .rightCtrl events) ∧
    ∀ c, (keyboardCallback (flagsAfter events) scancode).2 = some (.handleKey c) → c ≠ formFeed →
      (c = scancodeToAsciiShift.getD scancode.toNat 0 ↔ OneDown .leftShift .rightShift events)

section Modifiers

variable {left right : PhysicalKey}

/-- Whether the last event of the two keys was a press. -/
def lastPressed (left right : PhysicalKey) (events : List KeyEvent) : Bool :=
  events.foldl (fun pressed event => match event with
    | .press key => if key = left ∨ key = right then true else pressed
    | .release key => if key = left ∨ key = right then false else pressed) false

/-- One more event acts on the keys that are down. -/
theorem keysDown_concat (events : List KeyEvent) (event : KeyEvent) :
    keysDown (events ++ [event]) = match event with
      | .press key => insert key (keysDown events)
      | .release key => (keysDown events).erase key :=
  List.foldl_concat ..

/-- One more event acts on what was last pressed. -/
theorem lastPressed_concat (events : List KeyEvent) (event : KeyEvent) :
    lastPressed left right (events ++ [event]) = match event with
      | .press key => if key = left ∨ key = right then true else lastPressed left right events
      | .release key => if key = left ∨ key = right then false else lastPressed left right events :=
  List.foldl_concat ..

/-- One more event acts on the driver's flags through its scan codes. -/
theorem flagsAfter_concat (events : List KeyEvent) (event : KeyEvent) :
    flagsAfter (events ++ [event]) = event.scancodes.foldl
      (fun kb scancode => (keyboardCallback kb scancode).1) (flagsAfter events) := by
  unfold flagsAfter
  rw [List.flatMap_append, List.foldl_append, List.flatMap_singleton]

/-- A letter or digit key is none of the keys the driver looks for first. -/
theorem characterKeys_plain {scancode : Byte} (h : scancode ∈ characterKeys) :
    scancode ∉ [0xE0, 0x2A, 0x36, 0xAA, 0xB6, 0x1D, 0x9D, 0x0E, 0x0F] ∧ scancode &&& 0x80 = 0 ∧
      scancode ||| 0x80 ∉ [0xE0, 0x2A, 0x36, 0xAA, 0xB6, 0x1D, 0x9D] ∧
      (scancode ||| 0x80) &&& 0x80 ≠ 0 := by
  have hall : characterKeys.all (fun c =>
      !([0xE0, 0x2A, 0x36, 0xAA, 0xB6, 0x1D, 0x9D, 0x0E, 0x0F] : List Byte).contains c &&
        (c &&& 0x80 == 0) &&
        !([0xE0, 0x2A, 0x36, 0xAA, 0xB6, 0x1D, 0x9D] : List Byte).contains (c ||| 0x80) &&
        !((c ||| 0x80) &&& 0x80 == 0)) = true := rfl
  have hc := List.all_eq_true.mp hall scancode h
  simpa [and_assoc] using hc

/-- The two tables have different characters for a letter or digit key. -/
theorem ascii_character {scancode : Byte} (h : scancode ∈ characterKeys) (kb : Keyboard) :
    kb.ascii scancode ≠ 0 ∧ kb.ascii scancode ≠ formFeed ∧
      (kb.ascii scancode = scancodeToAsciiShift.getD scancode.toNat 0 ↔ kb.shiftPressed) := by
  let plain (c : Byte) : Byte := scancodeToAscii.getD c.toNat 0
  let shifted (c : Byte) : Byte := scancodeToAsciiShift.getD c.toNat 0
  have hall : characterKeys.all (fun c => !(plain c == 0) && !(plain c == formFeed) &&
      !(shifted c == 0) && !(shifted c == formFeed) && !(plain c == shifted c)) = true := rfl
  have hc := List.all_eq_true.mp hall scancode h
  simp only [Bool.and_eq_true, Bool.not_eq_true', beq_eq_false_iff_ne] at hc
  obtain ⟨⟨⟨⟨hplain, hplain'⟩, hshifted⟩, hshifted'⟩, hne⟩ := hc
  unfold Keyboard.ascii
  by_cases hshift : kb.shiftPressed
  · rw [if_pos hshift]
    exact ⟨hshifted, hshifted', iff_of_true rfl hshift⟩
  · rw [if_neg hshift]
    exact ⟨hplain, hplain', iff_of_false hne hshift⟩

/-- A letter or digit key reaches the shell as its character, or as the key that clears the
screen. -/
theorem callback_press {scancode : Byte} (h : scancode ∈ characterKeys) {kb : Keyboard}
    (hkb : kb.extended = false) :
    keyboardCallback kb scancode = (kb, some (.handleKey
      (if kb.ctrlPressed ∧ scancode = 0x26 then formFeed else kb.ascii scancode))) := by
  obtain ⟨shift, ctrl, extended⟩ := kb
  obtain rfl : extended = false := hkb
  obtain ⟨hplain, hlow, -, -⟩ := characterKeys_plain h
  simp only [List.mem_cons, List.not_mem_nil, or_false, not_or] at hplain
  obtain ⟨hE0, h2A, h36, hAA, hB6, h1D, h9D, h0E, h0F⟩ := hplain
  have hascii := (ascii_character h ⟨shift, ctrl, false⟩).1
  unfold keyboardCallback
  simp only [hE0, h2A, h36, hAA, hB6, h1D, h9D, h0E, h0F, hlow, hascii, if_false, false_and,
    or_self, Bool.false_eq_true, ne_eq, not_true_eq_false, not_false_eq_true, if_true]
  split <;> rfl

/-- The release of a character key does nothing. -/
theorem callback_release {scancode : Byte} (h : scancode ∈ characterKeys) {kb : Keyboard}
    (hkb : kb.extended = false) : keyboardCallback kb (scancode ||| 0x80) = (kb, none) := by
  obtain ⟨shift, ctrl, extended⟩ := kb
  obtain rfl : extended = false := hkb
  obtain ⟨-, -, hplain, hhigh⟩ := characterKeys_plain h
  simp only [List.mem_cons, List.not_mem_nil, or_false, not_or] at hplain
  obtain ⟨hE0, h2A, h36, hAA, hB6, h1D, h9D⟩ := hplain
  unfold keyboardCallback
  simp only [hE0, h2A, h36, hAA, hB6, h1D, h9D, if_false, false_and, or_self, Bool.false_eq_true]
  exact if_pos hhigh

/-- A flag follows the last event of its two keys; the prefix is forgotten after every event. -/
theorem flagsAfter_eq (events : List KeyEvent) : flagsAfter events =
    ⟨lastPressed .leftShift .rightShift events, lastPressed .leftCtrl .rightCtrl events,
      false⟩ := by
  induction events using List.reverseRecOn with
  | nil => rfl
  | append_singleton events event ih =>
    rw [flagsAfter_concat, lastPressed_concat, lastPressed_concat, ih]
    cases event with
    | press key =>
      cases key with
      | character scancode =>
        exact congrArg Prod.fst (callback_press scancode.2 rfl)
      | leftShift => rfl
      | rightShift => rfl
      | leftCtrl => rfl
      | rightCtrl => rfl
    | release key =>
      cases key with
      | character scancode =>
        exact congrArg Prod.fst (callback_release scancode.2 rfl)
      | leftShift => rfl
      | rightShift => rfl
      | leftCtrl => rfl
      | rightCtrl => rfl

/-- What the driver makes of a letter or digit key depends on the last modifier events. -/
theorem modifiersPhysical_iff (events : List KeyEvent) : ModifiersPhysical events ↔
    (lastPressed .leftShift .rightShift events ↔ OneDown .leftShift .rightShift events) ∧
    (lastPressed .leftCtrl .rightCtrl events ↔ OneDown .leftCtrl .rightCtrl events) := by
  unfold ModifiersPhysical
  rw [flagsAfter_eq]
  generalize hshift : lastPressed .leftShift .rightShift events = shift
  generalize hctrl : lastPressed .leftCtrl .rightCtrl events = ctrl
  constructor
  · intro h
    constructor
    · have ha : (0x1E : Byte) ∈ characterKeys := by decide
      obtain ⟨-, hff, hiff⟩ := ascii_character ha ⟨shift, ctrl, false⟩
      have hcall := callback_press ha (rfl : Keyboard.extended ⟨shift, ctrl, false⟩ = false)
      rw [if_neg (by simp)] at hcall
      exact hiff.symm.trans ((h 0x1E ha).2 _ (by rw [hcall]) hff)
    · have hl : (0x26 : Byte) ∈ characterKeys := by decide
      have hff := (ascii_character hl ⟨shift, ctrl, false⟩).2.1
      have hiff := (h 0x26 hl).1
      rw [callback_press hl rfl] at hiff
      simp only [Option.some.injEq, KeyCall.handleKey.injEq, and_true, true_and] at hiff
      refine Iff.trans ?_ hiff
      constructor
      · intro hpressed
        rw [if_pos hpressed]
      · intro heq
        by_contra hnot
        rw [if_neg hnot] at heq
        exact hff heq
  · rintro ⟨hs, hc⟩ scancode hmem
    obtain ⟨-, hff, hiff⟩ := ascii_character hmem ⟨shift, ctrl, false⟩
    rw [callback_press hmem rfl]
    simp only [Option.some.injEq, KeyCall.handleKey.injEq]
    by_cases hclear : ctrl = true ∧ scancode = 0x26
    · rw [if_pos hclear]
      exact ⟨iff_of_true rfl ⟨hclear.2, hc.mp hclear.1⟩, fun c heq hne => absurd heq.symm hne⟩
    · rw [if_neg hclear]
      refine ⟨iff_of_false hff fun hdown => hclear ⟨hc.mpr hdown.2, hdown.1⟩, ?_⟩
      rintro c rfl -
      exact hiff.trans hs

/-- A release of one of the keys while the other one is down clears the flag too early; nothing else
lets the flag and the keys differ. -/
theorem lastPressed_iff (events : List KeyEvent) (hne : left ≠ right) :
    (∀ moment, moment <+: events →
    (lastPressed left right moment ↔ OneDown left right moment)) ↔
      ReleasedAlone left right events := by
  constructor
  · intro h before key after heq
    have hafter := h (before ++ [.release key]) ⟨after, by rw [heq]; simp⟩
    rw [lastPressed_concat] at hafter
    unfold OneDown at hafter
    rw [keysDown_concat] at hafter
    dsimp only at hafter
    constructor
    · rintro rfl hdown
      rw [if_pos (Or.inl rfl)] at hafter
      exact Bool.false_ne_true (hafter.mpr (Or.inr (Finset.mem_erase.mpr ⟨hne.symm, hdown⟩)))
    · rintro rfl hdown
      rw [if_pos (Or.inr rfl)] at hafter
      exact Bool.false_ne_true (hafter.mpr (Or.inl (Finset.mem_erase.mpr ⟨hne, hdown⟩)))
  · rintro h moment ⟨rest, rfl⟩
    induction moment using List.reverseRecOn generalizing rest with
    | nil => simp [lastPressed, OneDown, keysDown]
    | append_singleton moment event ih =>
      rw [List.append_assoc] at h
      have ih := ih ([event] ++ rest) h
      rw [lastPressed_concat]
      unfold OneDown at ih ⊢
      rw [keysDown_concat]
      cases event with
      | press key =>
        dsimp only
        rw [Finset.mem_insert, Finset.mem_insert]
        split
        · next hkey =>
          refine iff_of_true rfl (hkey.imp (fun h => Or.inl h.symm) fun h => Or.inl h.symm)
        · next hkey =>
          rw [not_or] at hkey
          rw [ih]
          simp [Ne.symm hkey.1, Ne.symm hkey.2]
      | release key =>
        obtain ⟨hl, hr⟩ := h moment key rest rfl
        dsimp only
        rw [Finset.mem_erase, Finset.mem_erase]
        split
        · next hkey =>
          refine iff_of_false Bool.false_ne_true ?_
          rintro (⟨hkl, hdown⟩ | ⟨hkr, hdown⟩)
          · exact hr (hkey.resolve_left (Ne.symm hkl)) hdown
          · exact hl (hkey.resolve_right (Ne.symm hkr)) hdown
        · next hkey =>
          rw [not_or] at hkey
          rw [ih]
          simp [Ne.symm hkey.1, Ne.symm hkey.2]

/-- The driver takes the modifiers for what they are throughout a run exactly when no Shift key is
released while the other one is down, and no Ctrl key either. -/
theorem keyboard_modifiers (events : List KeyEvent) :
    (∀ moment, moment <+: events → ModifiersPhysical moment) ↔
      ReleasedAlone .leftShift .rightShift events ∧ ReleasedAlone .leftCtrl .rightCtrl events := by
  have hshift := lastPressed_iff events (by decide : PhysicalKey.leftShift ≠ .rightShift)
  have hctrl := lastPressed_iff events (by decide : PhysicalKey.leftCtrl ≠ .rightCtrl)
  rw [← hshift, ← hctrl, ← forall_and]
  refine forall_congr' fun moment => ?_
  rw [← imp_and, modifiersPhysical_iff]

/-- With the left Shift key held, a press and a release of the right one ends capital letters. -/
theorem keyboard_modifiers_two_shifts : ¬ ∀ events, Possible events → ModifiersPhysical events := by
  intro h
  have hpossible : Possible [.press .leftShift, .press .rightShift, .release .rightShift] := by
    intro before key after heq
    match before, heq with
    | [_, _], heq =>
      simp only [List.cons_append, List.nil_append, List.cons.injEq, KeyEvent.release.injEq] at heq
      obtain ⟨rfl, rfl, rfl, -⟩ := heq
      decide
    | _ :: _ :: _ :: before, heq => simp at heq
  have hshift := ((modifiersPhysical_iff _).mp (h _ hpossible)).1
  exact absurd (hshift.mpr (Or.inl (by decide))) (by decide)

end Modifiers

end AuriOS
