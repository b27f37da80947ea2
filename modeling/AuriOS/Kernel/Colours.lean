import AuriOS.Kernel.ControlSequence

/-!
# Colours

The colour that text and `ESC [ ... m` sequences leave, against a reference model that applies the
codes one after the other to a foreground and a background.

* `printedRun_ok`: the parser's pair of codes is what the codes of all sequences make of it in
  order, and the terminal has the attribute of that pair;
* `attributes_iff`: at the end of a sequence the attribute is that of the reference model exactly
  when the sequence does not end a half on a code that the parser reads differently.
-/

namespace AuriOS

open Program

/-! ### The reference model -/

/-- The VGA colour of the ANSI colour 0 to 7. -/
def vgaColor (n : ℕ) : Byte := [0, 4, 2, 6, 1, 5, 3, 7].getD n 0

/-- The colours of the reference model. -/
structure Attribute where
  fg : Byte
  bg : Byte

/-- Light grey on black. -/
def Attribute.default : Attribute := ⟨7, 0⟩

/-- The attribute byte of a cell. -/
def Attribute.byte (a : Attribute) : Byte := a.fg ||| (a.bg <<< 4)

/-- A code sets a half of the attribute, or resets it, or means nothing. -/
def Attribute.apply (a : Attribute) (code : ℕ) : Attribute :=
  if code = 0 then Attribute.default
  else if 30 ≤ code ∧ code ≤ 37 then { a with fg := vgaColor (code - 30) }
  else if 90 ≤ code ∧ code ≤ 97 then { a with fg := vgaColor (code - 90) + 8 }
  else if code = 39 then { a with fg := 7 }
  else if 40 ≤ code ∧ code ≤ 47 then { a with bg := vgaColor (code - 40) }
  else if code = 49 then { a with bg := 0 }
  else if 100 ≤ code ∧ code ≤ 107 then { a with bg := vgaColor (code - 100) + 8 }
  else a

/-- What is printed: text without an escape byte, or a sequence of at most eight codes. -/
inductive Printed
  | text (bytes : List Byte) (plain : escByte ∉ bytes)
  | sgr (p : List Byte) (rest : List (List Byte)) (digits : ∀ q ∈ p :: rest, ∀ c ∈ q, IsDigit c)
      (few : rest.length + 1 ≤ maxParams)

/-- The bytes that are sent for an item. -/
def Printed.bytes : Printed → List Byte
  | .text bytes _ => bytes
  | .sgr p rest _ _ => controlSequence p rest (AuriOS.byte 'm')

/-- The codes that an item carries. -/
def Printed.codes : Printed → List ℕ
  | .text _ _ => []
  | .sgr p rest _ _ => (p :: rest).map decimal

/-- The attribute of the reference model after everything printed. -/
def attributeAfter (items : List Printed) : Attribute :=
  (items.flatMap Printed.codes).foldl Attribute.apply Attribute.default

/-! ### The codes of the parser -/

/-- What `drain` leaves. -/
def VgaColor.after (color : VgaColor) (code : ℕ) : VgaColor :=
  if (30 ≤ code ∧ code ≤ 39) ∨ (90 ≤ code ∧ code ≤ 97) then { color with fg := code }
  else if 40 ≤ code ∧ code ≤ 49 then { color with bg := code }
  else if code = 0 then VgaColor.default
  else color

section Codes

variable {color : VgaColor} {a : Attribute} {code : ℕ}

/-- One code is drained as the parser's pair prescribes. -/
theorem drain_eq (color : VgaColor) (code : ℕ) : color.drain code = .ok (color.after code) := by
  unfold VgaColor.drain VgaColor.after intCast
  split
  · next hfg =>
    rw [if_pos (by omega)]
    rfl
  · split
    · next hbg =>
      rw [if_pos (by omega)]
      rfl
    · split <;> rfl

/-- The codes of a sequence are drained one after the other. -/
theorem drains_eq (color : VgaColor) (codes : List ℕ) :
    codes.foldlM VgaColor.drain color = .ok (codes.foldl VgaColor.after color) := by
  induction codes generalizing color with
  | nil => rfl
  | cons code codes ih => rw [List.foldlM_cons, drain_eq, ok_bind, ih, List.foldl_cons]

/-- A code that is cut to 65535 means nothing either way. -/
theorem after_saturate (color : VgaColor) (code : ℕ) :
    color.after (saturate code) = color.after code := by
  rcases Nat.le_total code 65535 with hle | hge
  · rw [saturate, Nat.min_eq_left hle]
  · rw [saturate, Nat.min_eq_right hge]
    unfold VgaColor.after
    rw [if_neg (by omega), if_neg (by omega), if_neg (by omega), if_neg (by omega),
      if_neg (by omega), if_neg (by omega)]

/-- Every code becomes one of the sixteen colours. -/
theorem csiToVga_lt (code : ℕ) : (csiToVga code).toNat < 16 := by
  unfold csiToVga
  split <;> decide

/-- A code that concerns the foreground. -/
def IsForeground (code : ℕ) : Prop := code = 0 ∨ (30 ≤ code ∧ code ≤ 39) ∨ (90 ≤ code ∧ code ≤ 97)

/-- A code that concerns the background. -/
def IsBackground (code : ℕ) : Prop := code = 0 ∨ (40 ≤ code ∧ code ≤ 49) ∨ (100 ≤ code ∧ code ≤ 107)

instance : DecidablePred IsForeground := fun _ => inferInstanceAs (Decidable (_ ∨ _))
instance : DecidablePred IsBackground := fun _ => inferInstanceAs (Decidable (_ ∨ _))

/-- The last of some codes of a kind. -/
def lastOf (kind : ℕ → Prop) [DecidablePred kind] (codes : List ℕ) : Option ℕ :=
  (codes.filter (fun code => kind code)).getLast?

/-- A later code of the kind takes the place of an earlier one. -/
theorem lastOf_concat (kind : ℕ → Prop) [DecidablePred kind] (codes : List ℕ) (code : ℕ) :
    lastOf kind (codes ++ [code]) = if kind code then some code else lastOf kind codes := by
  unfold lastOf
  by_cases hcode : kind code
  · simp [List.filter_append, hcode]
  · simp [List.filter_append, hcode]

/-- The parser reads the codes as they are meant, when they leave this attribute: 38 sets light
grey, which is right where the foreground is; 48 and 49 do so for the background, and 100 to 107 do
nothing. -/
structure Understood (codes : List ℕ) (a : Attribute) : Prop where
  foreground : lastOf IsForeground codes = some 38 → a.fg = 7
  background : ∀ code, lastOf IsBackground codes = some code →
    code ≠ 49 ∧ ¬ (100 ≤ code ∧ code ≤ 107) ∧ (code = 48 → a.bg = 7)

/-- A code that is no foreground code leaves the foreground alone, in the parser and in the
model. -/
theorem foreground_of_not (color : VgaColor) (a : Attribute) (h : ¬ IsForeground code) :
    (color.after code).fg = color.fg ∧ (a.apply code).fg = a.fg := by
  unfold IsForeground at h
  unfold VgaColor.after Attribute.apply
  constructor
  · rw [if_neg (by omega)]
    split
    · rfl
    · rw [if_neg (by omega)]
  · rw [if_neg (by omega), if_neg (by omega), if_neg (by omega), if_neg (by omega)]
    split
    · rfl
    · split
      · rfl
      · split <;> rfl

/-- A code that is no background code leaves the background alone, in the parser and in the
model. -/
theorem background_of_not (color : VgaColor) (a : Attribute) (h : ¬ IsBackground code) :
    (color.after code).bg = color.bg ∧ (a.apply code).bg = a.bg := by
  unfold IsBackground at h
  unfold VgaColor.after Attribute.apply
  constructor
  · split
    · rfl
    · rw [if_neg (by omega), if_neg (by omega)]
  · rw [if_neg (by omega)]
    split
    · rfl
    · split
      · rfl
      · split
        · rfl
        · rw [if_neg (by omega), if_neg (by omega), if_neg (by omega)]

/-- On a foreground code the parser and the model agree, but for 38. -/
theorem foreground_of (h : IsForeground code) :
    csiToVga (color.after code).fg = (a.apply code).fg ↔ (code = 38 → a.fg = 7) := by
  by_cases h38 : code = 38
  · subst h38
    change (7 : Byte) = a.fg ↔ _
    exact ⟨fun heq _ => heq.symm, fun heq => (heq rfl).symm⟩
  refine iff_of_true ?_ fun he => absurd he h38
  rcases h with rfl | ⟨hlo, hhi⟩ | ⟨hlo, hhi⟩
  · rfl
  · interval_cases code <;> first | rfl | exact absurd rfl h38
  · interval_cases code <;> rfl

/-- On a background code the parser and the model agree, but for 48, 49 and the bright ones. -/
theorem background_of (h : IsBackground code) (hrange : 40 ≤ color.bg ∧ color.bg ≤ 49) :
    csiToVga (color.after code).bg = (a.apply code).bg ↔
      code ≠ 49 ∧ ¬ (100 ≤ code ∧ code ≤ 107) ∧ (code = 48 → a.bg = 7) := by
  rcases h with rfl | ⟨hlo, hhi⟩ | ⟨hlo, hhi⟩
  · exact iff_of_true rfl ⟨by decide, by decide, fun he => absurd he (by decide)⟩
  · by_cases h48 : code = 48
    · subst h48
      change (7 : Byte) = a.bg ↔ _
      exact ⟨fun heq => ⟨by decide, by decide, fun _ => heq.symm⟩, fun heq => (heq.2.2 rfl).symm⟩
    by_cases h49 : code = 49
    · subst h49
      exact iff_of_false (show ¬ (7 : Byte) = 0 by decide) fun hno => hno.1 rfl
    refine iff_of_true ?_ ⟨h49, by omega, fun he => absurd he h48⟩
    interval_cases code <;> first | rfl | exact absurd rfl h48 | exact absurd rfl h49
  · refine iff_of_false ?_ fun hno => hno.2.1 ⟨hlo, hhi⟩
    have hbg : (color.after code).bg = color.bg := by
      unfold VgaColor.after
      rw [if_neg (by omega), if_neg (by omega), if_neg (by omega)]
    have hbright : (a.apply code).bg = vgaColor (code - 100) + 8 := by
      unfold Attribute.apply
      rw [if_neg (by omega), if_neg (by omega), if_neg (by omega), if_neg (by omega),
        if_neg (by omega), if_neg (by omega), if_pos ⟨hlo, hhi⟩]
    rw [hbg, hbright]
    obtain ⟨hlo', hhi'⟩ := hrange
    have hlow : (csiToVga color.bg).toNat < 8 := by
      interval_cases color.bg <;> decide
    intro heq
    rw [heq] at hlow
    interval_cases code <;> exact absurd hlow (by decide)

/-- The parser's background code is always one that it stored. -/
theorem after_bg_range (hrange : 40 ≤ color.bg ∧ color.bg ≤ 49) (code : ℕ) :
    40 ≤ (color.after code).bg ∧ (color.after code).bg ≤ 49 := by
  unfold VgaColor.after
  split
  · exact hrange
  · split
    · next hbg => exact hbg
    · split
      · exact ⟨by decide, by decide⟩
      · exact hrange

/-- The background code stays between 40 and 49. -/
theorem afters_bg_range (hrange : 40 ≤ color.bg ∧ color.bg ≤ 49) (codes : List ℕ) :
    40 ≤ (codes.foldl VgaColor.after color).bg ∧ (codes.foldl VgaColor.after color).bg ≤ 49 := by
  induction codes using List.reverseRecOn with
  | nil => exact hrange
  | append_singleton codes code ih =>
    rw [List.foldl_concat]
    exact after_bg_range ih code

/-- The parser's pair of codes stands for this attribute. -/
def StandsFor (color : VgaColor) (a : Attribute) : Prop :=
  csiToVga color.fg = a.fg ∧ csiToVga color.bg = a.bg

/-- After the codes the foreground is the reference model's, except that 38 makes light grey. -/
theorem foreground_iff (h : csiToVga color.fg = a.fg) (codes : List ℕ) :
    csiToVga (codes.foldl VgaColor.after color).fg = (codes.foldl Attribute.apply a).fg ↔
      (lastOf IsForeground codes = some 38 → (codes.foldl Attribute.apply a).fg = 7) := by
  induction codes using List.reverseRecOn with
  | nil => exact iff_of_true h fun he => nomatch he
  | append_singleton codes code ih =>
    rw [List.foldl_concat, List.foldl_concat, lastOf_concat]
    generalize codes.foldl VgaColor.after color = color at ih
    generalize codes.foldl Attribute.apply a = a at ih
    by_cases hcode : IsForeground code
    · rw [if_pos hcode, foreground_of hcode, Option.some_inj]
      refine forall_congr' fun h38 => ?_
      rw [h38]
      rfl
    · obtain ⟨hcolor, hattribute⟩ := foreground_of_not color a hcode
      rw [if_neg hcode, hcolor, hattribute, ih]

/-- After the codes the background is the reference model's, except after 49, after a bright code,
and after a 48 that does not come to light grey. -/
theorem background_iff (h : csiToVga color.bg = a.bg) (hrange : 40 ≤ color.bg ∧ color.bg ≤ 49)
    (codes : List ℕ) :
    csiToVga (codes.foldl VgaColor.after color).bg = (codes.foldl Attribute.apply a).bg ↔
      ∀ code, lastOf IsBackground codes = some code → code ≠ 49 ∧ ¬ (100 ≤ code ∧ code ≤ 107) ∧
        (code = 48 → (codes.foldl Attribute.apply a).bg = 7) := by
  induction codes using List.reverseRecOn with
  | nil => exact iff_of_true h fun _ he => nomatch he
  | append_singleton codes code ih =>
    have hrange' := afters_bg_range hrange codes
    rw [List.foldl_concat, List.foldl_concat, lastOf_concat]
    generalize codes.foldl VgaColor.after color = color at ih hrange'
    generalize codes.foldl Attribute.apply a = a at ih
    by_cases hcode : IsBackground code
    · rw [if_pos hcode, background_of hcode hrange']
      have h48 : (code = 48 → a.bg = 7) ↔ (code = 48 → (a.apply code).bg = 7) := by
        refine forall_congr' fun h48 => ?_
        rw [h48]
        rfl
      rw [h48]
      constructor
      · rintro hread _ ⟨⟩
        exact hread
      · exact fun hread => hread code rfl
    · obtain ⟨hcolor, hattribute⟩ := background_of_not color a hcode
      rw [if_neg hcode, hcolor, hattribute, ih]

/-- After a sequence the pair stands for the attribute of the model exactly when the codes are
understood. -/
theorem standsFor_iff (h : StandsFor color a) (hrange : 40 ≤ color.bg ∧ color.bg ≤ 49)
    (codes : List ℕ) :
    StandsFor (codes.foldl VgaColor.after color) (codes.foldl Attribute.apply a) ↔
      Understood codes (codes.foldl Attribute.apply a) := by
  unfold StandsFor
  rw [foreground_iff h.1, background_iff h.2 hrange]
  exact ⟨fun hu => ⟨hu.1, hu.2⟩, fun hu => ⟨hu.foreground, hu.background⟩⟩

/-- Two halves side by side. -/
theorem halves_toNat {f b : Byte} (hf : f.toNat < 16) (hb : b.toNat < 16) :
    (f ||| (b <<< 4)).toNat = b.toNat * 16 + f.toNat := by
  have hshift : b.toNat <<< 4 = b.toNat * 16 := Nat.shiftLeft_eq _ _
  rw [BitVec.toNat_or, BitVec.toNat_shiftLeft, Nat.mod_eq_of_lt (by omega), Nat.or_comm,
    ← Nat.shiftLeft_add_eq_or_of_lt (by omega : f.toNat < 2 ^ 4), hshift]

/-- The high half of the attribute is the background. -/
theorem toVga_high (color : VgaColor) : color.toVga >>> 4 = csiToVga color.bg := by
  have hfg := csiToVga_lt color.fg
  have hbg := csiToVga_lt color.bg
  apply BitVec.eq_of_toNat_eq
  unfold VgaColor.toVga
  rw [BitVec.toNat_ushiftRight, halves_toNat hfg hbg, Nat.shiftRight_eq_div_pow]
  omega

/-- The low half of the attribute is the foreground. -/
theorem toVga_low (color : VgaColor) : color.toVga &&& 0x0F = csiToVga color.fg := by
  have hfg := csiToVga_lt color.fg
  have hbg := csiToVga_lt color.bg
  apply BitVec.eq_of_toNat_eq
  unfold VgaColor.toVga
  rw [BitVec.toNat_and, halves_toNat hfg hbg]
  exact (Nat.and_two_pow_sub_one_eq_mod _ 4).trans (by omega)

/-- Bytes are equal when their halves are. -/
theorem attributeByte_iff (hfg : a.fg.toNat < 16) (hbg : a.bg.toNat < 16) :
    color.toVga = a.byte ↔ StandsFor color a := by
  have hfg' := csiToVga_lt color.fg
  have hbg' := csiToVga_lt color.bg
  unfold VgaColor.toVga Attribute.byte StandsFor
  rw [← BitVec.toNat_inj, halves_toNat hfg' hbg', halves_toNat hfg hbg, ← BitVec.toNat_inj,
    ← BitVec.toNat_inj]
  omega

/-- The eight colours fit in three bits. -/
theorem vgaColor_lt (n : ℕ) : (vgaColor n).toNat < 8 := by
  rcases Nat.lt_or_ge n 8 with hlt | hge
  · interval_cases n <;> decide
  · unfold vgaColor
    rw [List.getD_eq_default _ _ hge]
    decide

/-- A bright colour fits in four bits. -/
theorem bright_lt (n : ℕ) : (vgaColor n + 8).toNat < 16 := by
  have hlt := vgaColor_lt n
  rw [BitVec.toNat_add]
  exact (Nat.mod_le _ _).trans_lt (by change _ + 8 < 16; omega)

/-- Both halves of the model's attribute are colours. -/
theorem apply_lt (h : a.fg.toNat < 16 ∧ a.bg.toNat < 16) (code : ℕ) :
    (a.apply code).fg.toNat < 16 ∧ (a.apply code).bg.toNat < 16 := by
  have hcolor : ∀ n, (vgaColor n).toNat < 16 := fun n => (vgaColor_lt n).trans (by decide)
  unfold Attribute.apply
  split_ifs
  · exact ⟨by decide, by decide⟩
  · exact ⟨hcolor _, h.2⟩
  · exact ⟨bright_lt _, h.2⟩
  · exact ⟨show (7 : Byte).toNat < 16 by decide, h.2⟩
  · exact ⟨h.1, hcolor _⟩
  · exact ⟨h.1, show (0 : Byte).toNat < 16 by decide⟩
  · exact ⟨h.1, bright_lt _⟩
  · exact h

/-- Both colours of the reference model fit in four bits. -/
theorem attributeAfter_lt (items : List Printed) :
    (attributeAfter items).fg.toNat < 16 ∧ (attributeAfter items).bg.toNat < 16 := by
  unfold attributeAfter
  induction items.flatMap Printed.codes using List.reverseRecOn with
  | nil => exact ⟨by decide, by decide⟩
  | append_singleton codes code ih =>
    rw [List.foldl_concat]
    exact apply_lt ih code

end Codes

/-! ### Runs -/

section Runs

variable {k : Console}

/-- The terminal has the attribute of the parser's pair, and no sequence is open. -/
structure Console.Coloured (k : Console) (color : VgaColor) : Prop where
  normal : k.currentState = .normal
  active : k.activeColor = color
  shown : k.terminal.color = color.toVga

/-- A text leaves the colour. -/
theorem foldl_putcharRaw_color (text : List Byte) (t : Terminal) :
    (text.foldl (fun t c => terminalPutcharRaw c t) t).color = t.color := by
  induction text generalizing t with
  | nil => rfl
  | cons c text ih => rw [List.foldl_cons, ih, terminalPutcharRaw_color]

/-- One item printed moves the parser's pair by its codes. -/
theorem printed_ok {color : VgaColor} (h : k.Coloured color) (item : Printed) :
    ∃ k', putchars k item.bytes = .ok k' ∧
      k'.Coloured (item.codes.foldl VgaColor.after color) := by
  cases item with
  | text bytes plain =>
    refine ⟨_, putchars_normal h.normal plain, h.normal, h.active, ?_⟩
    exact (foldl_putcharRaw_color bytes k.terminal).trans h.shown
  | sgr p rest digits few =>
    obtain ⟨params, paramIndex, hrun, rfl, hslots⟩ := feed_parameters h.normal p rest digits
    have hown : ∀ i (h : i < maxParams),
        params[i] = saturate (decimal ((p :: rest).getD i [])) := by
      intro i hi
      rw [hslots i hi, SlotCycle.collected_eq hi, List.drop_eq_nil_of_le few,
        SlotCycle.collected_nil, List.append_nil]
    have happlied := (applied_iff hown).mpr (Or.inl few)
    rw [List.take_of_length_le (show (p :: rest).length ≤ maxParams from few)] at happlied
    have hdrain : drainParams params 0 (rest.length % maxParams + 1) k.activeColor =
        .ok ((Printed.sgr p rest digits few).codes.foldl VgaColor.after color) := by
      have hle : 0 + (rest.length % maxParams + 1) ≤ maxParams := by
        rw [Nat.zero_add]
        exact Nat.mod_lt _ (by decide)
      rw [drainParams_eq params hle, List.drop_zero, happlied, h.active, drains_eq, List.foldl_map]
      unfold Printed.codes
      rw [List.foldl_map]
      simp only [after_saturate]
    obtain ⟨k', hm, hcoloured⟩ : ∃ k', ansiProcessChar
        (k.inState (.bracket params (rest.length % maxParams))) (byte 'm') = .ok k' ∧
        k'.Coloured ((Printed.sgr p rest digits few).codes.foldl VgaColor.after color) := by
      refine ⟨({ k with activeColor :=
        (Printed.sgr p rest digits few).codes.foldl VgaColor.after color
        }.onTerminal (terminalSetcolor ((Printed.sgr p rest digits few).codes.foldl VgaColor.after
          color).toVga)).inState .normal, ?_, rfl, rfl, rfl⟩
      change processBracket _ params _ (byte 'm') = _
      unfold processBracket
      rw [if_neg (by decide), if_neg (by decide), if_neg (by decide), if_neg (by decide),
        if_pos rfl]
      change (drainParams params 0 (rest.length % maxParams + 1) k.activeColor >>= _) = _
      rw [hdrain, ok_bind]
      rfl
    refine ⟨k', ?_, hcoloured⟩
    unfold Printed.bytes controlSequence
    rw [putchars_append, hrun, ok_bind]
    exact (bind_pure _).trans hm

/-- The pair of codes after everything printed. -/
def codesAfter (items : List Printed) : VgaColor :=
  (items.flatMap Printed.codes).foldl VgaColor.after VgaColor.default

/-- The terminal starts in light grey on black. -/
theorem terminalInitialize_color (t : Terminal) :
    (terminalInitialize t).color = vgaEntryColor 7 0 := by
  obtain ⟨crtc, heq⟩ := terminalInitialize_eq t
  have hblank := blankAll_painted { t with row := 0, column := 0, color := vgaEntryColor 7 0 }
  rw [heq]
  exact hblank.color_eq

/-- The attribute of the boot is the default pair's. -/
theorem initial_color (buffer : ℕ → BitVec 16) (crtc : Crtc) :
    (Console.initial buffer crtc).terminal.color = VgaColor.default.toVga := by
  have hgrey : vgaEntryColor 7 0 = VgaColor.default.toVga := by decide
  rw [← hgrey]
  exact terminalInitialize_color _

/-- Everything printed after the boot moves the parser's pair by its codes. -/
theorem printedRun_ok (buffer : ℕ → BitVec 16) (crtc : Crtc) (items : List Printed) :
    ∃ k, putchars (Console.initial buffer crtc) (items.flatMap Printed.bytes) = .ok k ∧
      k.Coloured (codesAfter items) := by
  induction items using List.reverseRecOn with
  | nil => exact ⟨_, rfl, rfl, rfl, initial_color buffer crtc⟩
  | append_singleton items item ih =>
    obtain ⟨k, hrun, hk⟩ := ih
    obtain ⟨k', hitem, hk'⟩ := printed_ok hk item
    refine ⟨k', ?_, ?_⟩
    · rw [List.flatMap_append, List.flatMap_singleton, putchars_append, hrun, ok_bind, hitem]
    · unfold codesAfter at hk' ⊢
      rw [List.flatMap_append, List.flatMap_singleton, List.foldl_append]
      exact hk'

/-- One more item acts on the attribute with its codes. -/
theorem attributeAfter_concat (items : List Printed) (item : Printed) :
    attributeAfter (items ++ [item]) = item.codes.foldl Attribute.apply (attributeAfter items) := by
  unfold attributeAfter
  rw [List.flatMap_append, List.flatMap_singleton, List.foldl_append]

/-- One more thing printed keeps the attribute of the model exactly when its codes are
understood. -/
theorem standsFor_concat_iff {items : List Printed} (item : Printed)
    (h : StandsFor (codesAfter items) (attributeAfter items)) :
    StandsFor (codesAfter (items ++ [item])) (attributeAfter (items ++ [item])) ↔
      Understood item.codes (attributeAfter (items ++ [item])) := by
  have hrange : 40 ≤ (codesAfter items).bg ∧ (codesAfter items).bg ≤ 49 :=
    afters_bg_range ⟨by decide, by decide⟩ _
  have hcodes : codesAfter (items ++ [item]) =
      item.codes.foldl VgaColor.after (codesAfter items) := by
    unfold codesAfter
    rw [List.flatMap_append, List.flatMap_singleton, List.foldl_append]
  rw [hcodes, attributeAfter_concat]
  exact standsFor_iff h hrange item.codes

/-- The terminal shows the attribute of the model. -/
theorem color_eq_iff {items : List Printed} (h : k.Coloured (codesAfter items)) :
    k.terminal.color = (attributeAfter items).byte ↔
      StandsFor (codesAfter items) (attributeAfter items) := by
  obtain ⟨hfg, hbg⟩ := attributeAfter_lt items
  rw [h.shown, attributeByte_iff hfg hbg]

/-- Foreground codes leave the background half alone, and background codes the foreground half. -/
theorem after_halves (color : VgaColor) (code : ℕ) :
    ((30 ≤ code ∧ code ≤ 39) ∨ (90 ≤ code ∧ code ≤ 97) →
      (color.after code).toVga >>> 4 = color.toVga >>> 4) ∧
    ((40 ≤ code ∧ code ≤ 49) ∨ (100 ≤ code ∧ code ≤ 107) →
      (color.after code).toVga &&& 0x0F = color.toVga &&& 0x0F) := by
  constructor
  · intro hcode
    have hbg : (color.after code).bg = color.bg := by
      unfold VgaColor.after
      rw [if_pos hcode]
    rw [toVga_high, toVga_high, hbg]
  · intro hcode
    have hfg : (color.after code).fg = color.fg := by
      unfold VgaColor.after
      rw [if_neg (by omega)]
      split
      · rfl
      · rw [if_neg (by omega)]
    rw [toVga_low, toVga_low, hfg]

/-- From boot on, whatever is printed, the attribute is that of the model after every text and every
sequence exactly when the codes of every sequence are understood; foreground and background codes
never alter the other half. -/
theorem attributes_iff (buffer : ℕ → BitVec 16) (crtc : Crtc) (items : List Printed) :
    ((∀ before, before <+: items → ∃ k,
        putchars (Console.initial buffer crtc) (before.flatMap Printed.bytes) = .ok k ∧
        k.terminal.color = (attributeAfter before).byte) ↔
      ∀ before item after, items = before ++ item :: after →
        Understood item.codes (attributeAfter (before ++ [item]))) ∧
    ∀ color code color', VgaColor.drain color code = .ok color' →
      ((30 ≤ code ∧ code ≤ 39) ∨ (90 ≤ code ∧ code ≤ 97) → color'.toVga >>> 4 = color.toVga >>> 4) ∧
      ((40 ≤ code ∧ code ≤ 49) ∨ (100 ≤ code ∧ code ≤ 107) →
        color'.toVga &&& 0x0F = color.toVga &&& 0x0F) := by
  constructor
  · have hshown : ∀ before : List Printed, (∃ k,
        putchars (Console.initial buffer crtc) (before.flatMap Printed.bytes) = .ok k ∧
        k.terminal.color = (attributeAfter before).byte) ↔
          StandsFor (codesAfter before) (attributeAfter before) := by
      intro before
      obtain ⟨k, hrun, hk⟩ := printedRun_ok buffer crtc before
      rw [← color_eq_iff hk]
      constructor
      · rintro ⟨k', hrun', hcolor⟩
        obtain rfl : k = k' := Except.ok.inj (hrun.symm.trans hrun')
        exact hcolor
      · exact fun hcolor => ⟨k, hrun, hcolor⟩
    simp only [hshown]
    constructor
    · rintro h before item after rfl
      have hbefore := h before (List.prefix_append _ _)
      exact (standsFor_concat_iff item hbefore).mp (h _ ⟨after, by simp⟩)
    · rintro h before ⟨after, rfl⟩
      induction before using List.reverseRecOn generalizing after with
      | nil => exact ⟨rfl, rfl⟩
      | append_singleton before item ih =>
        rw [List.append_assoc] at h
        exact (standsFor_concat_iff item (ih _ h)).mpr (h before item after rfl)
  · intro color code color' hdrain
    rw [drain_eq] at hdrain
    obtain rfl := Except.ok.inj hdrain
    exact after_halves color code

/-- `ESC [ 49 m` makes the background light grey, not black. -/
theorem attributes_default_background : ¬ ∀ items : List Printed, ∃ k,
    putchars (Console.initial (fun _ => 0) ⟨0, fun _ => 0⟩) (items.flatMap Printed.bytes) = .ok k ∧
      k.terminal.color = (attributeAfter items).byte := by
  intro hall
  let item : Printed := .sgr [byte '4', byte '9'] [] (by decide) (by decide)
  obtain ⟨k, hrun, hcolor⟩ := hall [item]
  obtain ⟨k', hrun', hk'⟩ := printedRun_ok (fun _ => 0) ⟨0, fun _ => 0⟩ [item]
  obtain rfl : k' = k := Except.ok.inj (hrun'.symm.trans hrun)
  rw [hk'.shown] at hcolor
  exact absurd hcolor (by decide)

end Runs

end AuriOS
