import AuriOS.Foundation.SlotCycle
import AuriOS.Kernel.Ansi
import AuriOS.Lib.Integer

/-!
# Control sequences

What the parser makes of `ESC [ p1 ; p2 ; ... ; pk F`, for parameters of any number and any length.

* `feed_parameters`: before `F` the eight slots hold the parameters put into them in turn, the
  digits of the ninth one after those of the first one, cut to 65535;
* `controlSequence_exact_iff`: when the first eight parameters reach the handler unharmed;
* `colorReset_iff`, `escByte_begins_iff`: when an escape sequence is taken for one.
-/

namespace AuriOS

open Program SlotCycle

/-! ### Parameters -/

/-- What `*|` and `+|` make of a number. -/
def saturate (n : ℕ) : ℕ := min n 65535

/-- A digit is added to the number read so far. -/
theorem saturate_step (n d : ℕ) :
    satAdd (satMul (saturate n) 10) d = saturate (n * 10 + d) := by
  unfold satAdd satMul saturate
  omega

/-- The bytes from the `[` on, up to the final byte; there is always a first parameter, which may be
empty. -/
def parameterBytes (p : List Byte) (rest : List (List Byte)) : List Byte :=
  p ++ rest.flatMap (byte ';' :: ·)

/-- `ESC [ p1 ; p2 ; ... ; pk F`. -/
def controlSequence (p : List Byte) (rest : List (List Byte)) (final : Byte) : List Byte :=
  escByte :: byte '[' :: parameterBytes p rest ++ [final]

/-- The parser has read the parameters `done` and is in the middle of `p`. -/
structure Collecting (done : List (List Byte)) (p : List Byte) (params : Vector ℕ maxParams)
    (paramIndex : ℕ) : Prop where
  index_eq : paramIndex = done.length % maxParams
  slot : ∀ i (h : i < maxParams),
    params[i] = saturate (decimal (collected maxParams (done ++ [p]) i))

section Feed

variable {k : Console} {done : List (List Byte)} {p : List Byte} {params : Vector ℕ maxParams}
  {paramIndex : ℕ} {c : Byte}

/-- The index of the parameter is in range. -/
theorem Collecting.index_lt (h : Collecting done p params paramIndex) : paramIndex < maxParams :=
  h.index_eq ▸ Nat.mod_lt _ (by decide)

/-- After the bracket there is one parameter without digits. -/
theorem collecting_start : Collecting [] [] (Vector.replicate maxParams 0) 0 where
  index_eq := rfl
  slot i h := by
    rw [List.nil_append, ← List.nil_append [[]], collected_concat, collected_nil, List.nil_append,
      ite_self, Vector.getElem_replicate]
    rfl

/-- A digit goes to the end of the slot that is being filled. -/
theorem feed_digit (h : Collecting done p params paramIndex) (hc : IsDigit c) :
    ∃ params', ansiProcessChar (k.inState (.bracket params paramIndex)) c =
        .ok (k.inState (.bracket params' paramIndex)) ∧
      Collecting done (p ++ [c]) params' paramIndex := by
  have hlt := h.index_lt
  refine ⟨params.set paramIndex (satAdd (satMul params[paramIndex] 10) (digitValue c)), ?_,
    h.index_eq, fun i hi => ?_⟩
  · change processBracket _ params paramIndex c = _
    have hdigit : byte '0' ≤ c ∧ c ≤ byte '9' := hc
    unfold processBracket
    rw [if_pos hdigit, checkedSub_ok hc.1, ok_bind, getParam_ok params hlt, ok_bind,
      setParam_ok params hlt, ok_bind]
    rfl
  · rw [Vector.getElem_set]
    by_cases hslot : paramIndex = i
    · subst hslot
      rw [if_pos rfl, h.slot _ hlt, saturate_step, collected_concat, collected_concat,
        if_pos h.index_eq.symm, if_pos h.index_eq.symm, ← List.append_assoc, decimal_concat]
    · have hturn : ¬ done.length % maxParams = i := h.index_eq ▸ hslot
      rw [if_neg hslot, h.slot i hi, collected_concat, collected_concat, if_neg hturn, if_neg hturn]

/-- Digits are added to the current parameter. -/
theorem feed_digits (h : Collecting done p params paramIndex) {digits : List Byte}
    (hdigits : ∀ c ∈ digits, IsDigit c) :
    ∃ params', putchars (k.inState (.bracket params paramIndex)) digits =
        .ok (k.inState (.bracket params' paramIndex)) ∧
      Collecting done (p ++ digits) params' paramIndex := by
  induction digits generalizing p params with
  | nil => exact ⟨params, rfl, by rwa [List.append_nil]⟩
  | cons c digits ih =>
    obtain ⟨params₁, hstep, h₁⟩ := feed_digit (k := k) h (hdigits c List.mem_cons_self)
    obtain ⟨params', hrun, h'⟩ := ih h₁ fun d hd => hdigits d (List.mem_cons_of_mem c hd)
    refine ⟨params', ?_, by rwa [List.append_assoc] at h'⟩
    unfold putchars at hrun ⊢
    rw [List.foldlM_cons, terminalPutchar, hstep, ok_bind, hrun]

/-- A semicolon begins the next parameter. -/
theorem feed_semicolon (h : Collecting done p params paramIndex) :
    ansiProcessChar (k.inState (.bracket params paramIndex)) (byte ';') =
        .ok (k.inState (.bracket params ((paramIndex + 1) % maxParams))) ∧
      Collecting (done ++ [p]) [] params ((paramIndex + 1) % maxParams) := by
  have hlt := h.index_lt
  have hmax : maxParams < 2 ^ 32 := by decide
  refine ⟨?_, ?_, fun i hi => ?_⟩
  · change processBracket _ params paramIndex (byte ';') = _
    unfold processBracket
    rw [if_neg (by decide), if_neg (by decide), if_neg (by decide), if_pos rfl,
      checkedAdd_ok (by omega), ok_bind]
    rfl
  · rw [h.index_eq, List.length_append, List.length_singleton, Nat.mod_add_mod]
  · rw [h.slot i hi, collected_concat (done ++ [p]), ite_self, List.append_nil]

/-- Every semicolon begins the next parameter. -/
theorem feed_rest (h : Collecting done p params paramIndex) {rest : List (List Byte)}
    (hdigits : ∀ q ∈ rest, ∀ c ∈ q, IsDigit c) :
    ∃ done' p' params' paramIndex', done ++ p :: rest = done' ++ [p'] ∧
      putchars (k.inState (.bracket params paramIndex)) (rest.flatMap (byte ';' :: ·)) =
        .ok (k.inState (.bracket params' paramIndex')) ∧
      Collecting done' p' params' paramIndex' := by
  induction rest generalizing done p params paramIndex with
  | nil => exact ⟨done, p, params, paramIndex, rfl, rfl, h⟩
  | cons q rest ih =>
    obtain ⟨hsemi, h₁⟩ := feed_semicolon (k := k) h
    obtain ⟨params₂, hq, h₂⟩ := feed_digits (k := k) h₁ (hdigits q List.mem_cons_self)
    obtain ⟨done', p', params', paramIndex', hall, hrun, h'⟩ :=
      ih h₂ fun r hr => hdigits r (List.mem_cons_of_mem q hr)
    refine ⟨done', p', params', paramIndex', ?_, ?_, h'⟩
    · rw [← hall, List.append_assoc]
      rfl
    · rw [List.flatMap_cons, List.cons_append, ← List.singleton_append, putchars_append,
        show putchars (k.inState (.bracket params paramIndex)) [byte ';'] =
          terminalPutchar (k.inState (.bracket params paramIndex)) (byte ';') from bind_pure _,
        terminalPutchar, hsemi, ok_bind, putchars_append, hq, ok_bind, hrun]

/-- Before the final byte, slot `i` holds the digits of the parameters `i`, `i + 8` and so on. -/
theorem feed_parameters (hk : k.currentState = .normal) (p : List Byte) (rest : List (List Byte))
    (hdigits : ∀ q ∈ p :: rest, ∀ c ∈ q, IsDigit c) :
    ∃ params paramIndex, putchars k (escByte :: byte '[' :: parameterBytes p rest) =
        .ok (k.inState (.bracket params paramIndex)) ∧
      paramIndex = rest.length % maxParams ∧
      ∀ i (h : i < maxParams),
        params[i] = saturate (decimal (collected maxParams (p :: rest) i)) := by
  have hesc : ansiProcessChar k escByte = .ok (k.inState .escape) := by
    unfold ansiProcessChar
    rw [hk]
    rfl
  have hopen : ansiProcessChar (k.inState .escape) (byte '[') =
      .ok (k.inState (.bracket (Vector.replicate maxParams 0) 0)) := rfl
  obtain ⟨params₁, hp, h₁⟩ := feed_digits (k := k) collecting_start (hdigits p List.mem_cons_self)
  rw [List.nil_append] at h₁
  obtain ⟨done', p', params', paramIndex', hall, hrun, h'⟩ :=
    feed_rest (k := k) h₁ fun q hq => hdigits q (List.mem_cons_of_mem p hq)
  rw [List.nil_append] at hall
  have hlength := congrArg List.length hall
  rw [List.length_cons, List.length_append, List.length_singleton,
    Nat.add_right_cancel_iff] at hlength
  refine ⟨params', paramIndex', ?_, ?_, fun i hi => ?_⟩
  · unfold parameterBytes
    change (ansiProcessChar k escByte >>= fun k => terminalPutchar k (byte '[') >>= fun k =>
      putchars k (p ++ rest.flatMap (byte ';' :: ·))) = _
    rw [hesc, ok_bind, terminalPutchar, hopen, ok_bind, putchars_append, hp, ok_bind, hrun]
  · rw [h'.index_eq, hlength]
  · rw [h'.slot i hi, hall]

end Feed

/-! ### More parameters than slots -/

/-- The digits that come to a slot after its own parameter make no difference. -/
def Harmless (own later : List Byte) : Prop :=
  later = [] ∨ (decimal own = 0 ∧ decimal later = 0) ∨ 65535 ≤ decimal own

/-- Later digits leave the number of the slot exactly when they are harmless. -/
theorem saturate_append_iff (own later : List Byte) :
    saturate (decimal (own ++ later)) = saturate (decimal own) ↔ Harmless own later := by
  unfold Harmless
  rw [decimal_append]
  generalize decimal own = a
  by_cases hlater : later = []
  · rw [hlater]
    exact iff_of_true (by simp [decimal_nil]) (Or.inl rfl)
  rw [or_iff_right hlater]
  have hten : 10 ≤ 10 ^ later.length :=
    Nat.le_self_pow (Nat.ne_of_gt (List.length_pos_iff.mpr hlater)) 10
  have hle : a * 10 ≤ a * 10 ^ later.length := Nat.mul_le_mul_left a hten
  generalize decimal later = b
  constructor
  · intro heq
    unfold saturate at heq
    rcases Nat.eq_zero_or_pos a with rfl | hpos
    · rw [Nat.zero_mul, Nat.zero_add] at heq
      exact Or.inl ⟨rfl, by omega⟩
    · exact Or.inr (by omega)
  · unfold saturate
    rintro (⟨rfl, rfl⟩ | hbig)
    · rw [Nat.zero_mul, Nat.zero_add]
    · omega

/-- The loop of `m` goes through the slots in order. -/
theorem drainParams_eq (params : Vector ℕ maxParams) {i n : ℕ} (h : i + n ≤ maxParams)
    (color : VgaColor) :
    drainParams params i n color = ((params.toList.drop i).take n).foldlM VgaColor.drain color := by
  induction n generalizing i color with
  | zero => rfl
  | succ n ih =>
    have hmax : maxParams < 2 ^ 32 := by decide
    have hi : i < params.toList.length := by rw [Vector.length_toList]; omega
    have hslot : params.toList[i] = params[i] := Vector.getElem_toList hi
    rw [drainParams, getParam_ok params (by omega), ok_bind, checkedAdd_ok (by omega),
      List.drop_eq_getElem_cons hi, List.take_succ_cons, List.foldlM_cons, hslot]
    exact bind_congr fun color' => ih (by omega) color'

section Exact

variable {k : Console} {p : List Byte} {rest : List (List Byte)}

/-- The slots that `m` applies are the first eight parameters, when every slot holds its own. -/
theorem applied_iff {params : Vector ℕ maxParams}
    (hslots : ∀ i (h : i < maxParams), params[i] = saturate (decimal ((p :: rest).getD i []))) :
    params.toList.take (rest.length % maxParams + 1) =
        ((p :: rest).take maxParams).map (fun q => saturate (decimal q)) ↔
      rest.length + 1 ≤ maxParams ∨ (rest.length + 1) % maxParams = 0 := by
  have hlt : rest.length % maxParams < maxParams := Nat.mod_lt _ (by decide)
  have hlength : (params.toList.take (rest.length % maxParams + 1)).length =
      rest.length % maxParams + 1 := by
    rw [List.length_take, Vector.length_toList]
    exact Nat.min_eq_left hlt
  have hlength' : (((p :: rest).take maxParams).map (fun q => saturate (decimal q))).length =
      min maxParams (rest.length + 1) := by
    rw [List.length_map, List.length_take, List.length_cons]
  have hcount : rest.length % maxParams + 1 = min maxParams (rest.length + 1) ↔
      rest.length + 1 ≤ maxParams ∨ (rest.length + 1) % maxParams = 0 := by
    change rest.length % 8 + 1 = min 8 (rest.length + 1) ↔
      rest.length + 1 ≤ 8 ∨ (rest.length + 1) % 8 = 0
    omega
  rw [← hcount]
  constructor
  · intro heq
    rw [← hlength, heq, hlength']
  · intro heq
    refine List.ext_getElem (by rw [hlength, hlength', heq]) fun i hi hi' => ?_
    rw [hlength', Nat.lt_min] at hi'
    rw [List.getElem_take, List.getElem_map, List.getElem_take, Vector.getElem_toList,
      hslots i hi'.1, List.getD_eq_getElem _ _ hi'.2]

/-- When the final byte comes, the slots hold the first eight parameters, and `m` applies just
these, exactly when the later parameters do not touch them and their number leaves the index on the
last one. -/
theorem controlSequence_exact_iff (hk : k.currentState = .normal)
    (hdigits : ∀ q ∈ p :: rest, ∀ c ∈ q, IsDigit c) (final : Byte) :
    ∃ params paramIndex,
      putchars k (escByte :: byte '[' :: parameterBytes p rest) =
        .ok (k.inState (.bracket params paramIndex)) ∧
      drainParams params 0 (paramIndex + 1) k.activeColor =
        (params.toList.take (paramIndex + 1)).foldlM VgaColor.drain k.activeColor ∧
      (((∀ i (h : i < maxParams), params[i] = saturate (decimal ((p :: rest).getD i []))) ∧
          (final = byte 'm' → params.toList.take (paramIndex + 1) =
            ((p :: rest).take maxParams).map (fun q => saturate (decimal q)))) ↔
        (∀ i < maxParams,
          Harmless ((p :: rest).getD i []) (collected maxParams ((p :: rest).drop maxParams) i)) ∧
        (final = byte 'm' → rest.length + 1 ≤ maxParams ∨ (rest.length + 1) % maxParams = 0)) := by
  obtain ⟨params, paramIndex, hrun, rfl, hslots⟩ := feed_parameters hk p rest hdigits
  refine ⟨params, _, hrun, drainParams_eq params ?_ k.activeColor, ?_⟩
  · rw [Nat.zero_add]
    exact Nat.mod_lt _ (by decide)
  have hown : (∀ i (h : i < maxParams), params[i] = saturate (decimal ((p :: rest).getD i []))) ↔
      ∀ i < maxParams,
        Harmless ((p :: rest).getD i []) (collected maxParams ((p :: rest).drop maxParams) i) := by
    refine forall_congr' fun i => forall_congr' fun hi => ?_
    rw [hslots i hi, collected_eq hi]
    exact saturate_append_iff _ _
  rw [← hown]
  refine and_congr_right fun hall => ?_
  rw [applied_iff hall]

/-- The sequence `ESC [ 1 ; 31 m`. -/
theorem controlSequence_exact_bold_red :
    ∃ params paramIndex,
      putchars (Console.initial (fun _ => 0) ⟨0, fun _ => 0⟩)
          (escByte :: byte '[' :: parameterBytes [byte '1'] [[byte '3', byte '1']]) =
        .ok ((Console.initial (fun _ => 0) ⟨0, fun _ => 0⟩).inState (.bracket params paramIndex)) ∧
      drainParams params 0 (paramIndex + 1) VgaColor.default =
        (params.toList.take (paramIndex + 1)).foldlM VgaColor.drain VgaColor.default ∧
      (((∀ i (h : i < maxParams), params[i] =
            saturate (decimal ([[byte '1'], [byte '3', byte '1']].getD i []))) ∧
          (byte 'm' = byte 'm' → params.toList.take (paramIndex + 1) =
            ([[byte '1'], [byte '3', byte '1']].take maxParams).map
              (fun q => saturate (decimal q)))) ↔
        (∀ i < maxParams, Harmless ([[byte '1'], [byte '3', byte '1']].getD i [])
          (collected maxParams ([[byte '1'], [byte '3', byte '1']].drop maxParams) i)) ∧
        (byte 'm' = byte 'm' → 2 ≤ maxParams ∨ 2 % maxParams = 0)) :=
  controlSequence_exact_iff rfl (by decide) (byte 'm')

/-- In `ESC [ 1 ; ; ; ; ; ; ; ; 2 m` the ninth parameter makes the first one 12. -/
theorem controlSequence_ninth : ¬ ∀ (k : Console) (p : List Byte) (rest : List (List Byte))
    (final : Byte), k.currentState = .normal → (∀ q ∈ p :: rest, ∀ c ∈ q, IsDigit c) →
    final ∈ [byte 'J', byte 'H', byte 'm'] →
    ∃ params paramIndex,
      putchars k (escByte :: byte '[' :: parameterBytes p rest) =
        .ok (k.inState (.bracket params paramIndex)) ∧
      (∀ i (h : i < maxParams), params[i] = saturate (decimal ((p :: rest).getD i []))) ∧
      (final = byte 'm' → params.toList.take (paramIndex + 1) =
        ((p :: rest).take maxParams).map (fun q => saturate (decimal q))) := by
  intro hall
  have hdigits : ∀ q ∈ [byte '1'] :: (List.replicate 7 [] ++ [[byte '2']]), ∀ c ∈ q, IsDigit c := by
    decide
  obtain ⟨params, paramIndex, hrun, -, hslots⟩ := feed_parameters
    (rfl : (Console.initial (fun _ => 0) ⟨0, fun _ => 0⟩).currentState = .normal) _ _ hdigits
  obtain ⟨params', paramIndex', hrun', hslots', -⟩ :=
    hall (Console.initial (fun _ => 0) ⟨0, fun _ => 0⟩) _ _ (byte 'm') rfl hdigits (by simp)
  have hstate := congrArg Console.currentState (Except.ok.inj (hrun.symm.trans hrun'))
  obtain ⟨rfl, -⟩ := State.bracket.inj hstate
  have hfirst := (hslots 0 (by decide)).symm.trans (hslots' 0 (by decide))
  exact absurd hfirst (by decide)

end Exact

/-! ### Escape sequences after anything -/

/-- `COLOR_RESET`. -/
def colorReset : List Byte := [escByte, byte '[', byte '0', byte 'm']

/-- `COLOR_RESET` prints nothing and sets the default colour. -/
def ResetsColor (k : Console) : Prop :=
  ∃ k', putchars k colorReset = .ok k' ∧ k'.currentState = .normal ∧ k'.terminal.color = 0x07 ∧
    k'.terminal.buffer = k.terminal.buffer ∧ k'.terminal.row = k.terminal.row ∧
    k'.terminal.column = k.terminal.column

section Reset

variable {k : Console} {t : Terminal} {c : Byte}

/-- The end of `COLOR_RESET`, taken for text, moves the cursor. -/
theorem printed_column (h : t.column < vgaWidth) :
    (terminalPutcharRaw (byte 'm') (terminalPutcharRaw (byte '0')
      (terminalPutcharRaw (byte '[') t))).column ≠ t.column := by
  have hlt : ∀ n, n % vgaWidth < vgaWidth := fun n => Nat.mod_lt n (by decide)
  have h₁ := terminalPutcharRaw_column h (by decide : byte '[' ≠ byte '\n')
  have h₂ := terminalPutcharRaw_column (h₁ ▸ hlt _) (by decide : byte '0' ≠ byte '\n')
  have h₃ := terminalPutcharRaw_column (h₂ ▸ hlt _) (by decide : byte 'm' ≠ byte '\n')
  rw [h₃, h₂, h₁]
  change t.column < 80 at h
  change (((t.column + 1) % 80 + 1) % 80 + 1) % 80 ≠ t.column
  omega

/-- Inside a sequence an escape byte only ends the sequence. -/
theorem escByte_aborts (hstate : k.currentState ≠ .normal) :
    ansiProcessChar k escByte = .ok (k.inState .normal) := by
  unfold ansiProcessChar
  split
  · next hnormal => exact absurd hnormal hstate
  · rfl
  · unfold processBracket
    rfl

/-- In the normal state an escape begins a sequence. -/
theorem escByte_begins (hstate : k.currentState = .normal) :
    ansiProcessChar k escByte = .ok (k.inState .escape) := by
  unfold ansiProcessChar
  rw [hstate]
  rfl

/-- An escape byte begins a sequence exactly when the parser is in its normal state. -/
theorem escByte_begins_iff (k : Console) :
    (∃ k', ansiProcessChar k escByte = .ok k' ∧ k'.currentState = .escape) ↔
      k.currentState = .normal := by
  constructor
  · rintro ⟨k', hstep, hescape⟩
    by_contra hstate
    obtain rfl : k.inState .normal = k' := Except.ok.inj ((escByte_aborts hstate).symm.trans hstep)
    exact State.noConfusion hescape
  · exact fun hstate => ⟨_, escByte_begins hstate, rfl⟩

/-- The sequence `ESC[0m` resets the colours exactly when the parser was in its normal state. -/
theorem resetsColor_iff (hk : k.Valid) : ResetsColor k ↔ k.currentState = .normal := by
  constructor
  · rintro ⟨k', hrun, -, -, -, -, hcolumn⟩
    by_contra hstate
    have hprint : putchars (k.inState .normal) [byte '[', byte '0', byte 'm'] = .ok k' := by
      unfold colorReset putchars at hrun
      rwa [List.foldlM_cons, terminalPutchar, escByte_aborts hstate, ok_bind] at hrun
    rw [putchars_normal rfl (by decide)] at hprint
    obtain rfl := Except.ok.inj hprint
    exact printed_column hk.terminal.column_lt hcolumn
  · intro hstate
    have hdefault : VgaColor.toVga ⟨37, 40⟩ = 0x07 := by decide
    let k' : Console := { k with activeColor := VgaColor.default }
    refine ⟨(k'.onTerminal (terminalSetcolor 0x07)).inState .normal, ?_, rfl, rfl, rfl, rfl, rfl⟩
    have hbegin : ansiProcessChar (k.inState .escape) (byte '[') =
        .ok (k.inState (.bracket (Vector.replicate maxParams 0) 0)) := rfl
    have hzero :
        ansiProcessChar (k.inState (.bracket (Vector.replicate maxParams 0) 0)) (byte '0') =
        .ok (k.inState (.bracket (Vector.replicate maxParams 0) 0)) := rfl
    have hm : ansiProcessChar (k.inState (.bracket (Vector.replicate maxParams 0) 0)) (byte 'm') =
        .ok ((k'.onTerminal (terminalSetcolor (VgaColor.toVga ⟨37, 40⟩))).inState .normal) := rfl
    rw [hdefault] at hm
    change (ansiProcessChar k escByte >>= fun k => ansiProcessChar k (byte '[') >>= fun k =>
      ansiProcessChar k (byte '0') >>= fun k => putchars k [byte 'm']) = _
    rw [escByte_begins hstate, ok_bind, hbegin, ok_bind, hzero, ok_bind]
    exact (bind_pure _).trans hm

/-- After any bytes: `COLOR_RESET` resets the colour and prints nothing, and an escape byte begins a
new sequence, exactly when these bytes left no sequence open. -/
theorem colorReset_iff (buffer : ℕ → BitVec 16) (crtc : Crtc) (text : List Byte) :
    ∃ k, putchars (Console.initial buffer crtc) text = .ok k ∧
      (ResetsColor k ↔ k.currentState = .normal) ∧
      ((∃ k', ansiProcessChar k escByte = .ok k' ∧ k'.currentState = .escape) ↔
        k.currentState = .normal) := by
  obtain ⟨k, hrun, hk⟩ := putchars_ok (Console.initial_valid buffer crtc) text
  exact ⟨k, hrun, resetsColor_iff hk, escByte_begins_iff k⟩

/-- After a lone escape byte, the rest of `COLOR_RESET` is printed. -/
theorem colorReset_after_escape : ¬ ∀ (text : List Byte) (k : Console),
    putchars (Console.initial (fun _ => 0) ⟨0, fun _ => 0⟩) text = .ok k → ResetsColor k := by
  intro hall
  have hrun : putchars (Console.initial (fun _ => 0) ⟨0, fun _ => 0⟩) [escByte] =
      .ok ((Console.initial (fun _ => 0) ⟨0, fun _ => 0⟩).inState .escape) := rfl
  have hvalid : ((Console.initial (fun _ => 0) ⟨0, fun _ => 0⟩).inState .escape).Valid :=
    (Console.initial_valid _ _).inState fun _ _ he => State.noConfusion he
  exact State.noConfusion ((resetsColor_iff hvalid).mp (hall _ _ hrun))

end Reset

end AuriOS
