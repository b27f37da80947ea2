import AuriOS.Foundation.CommonPrefix
import AuriOS.Kernel.LineEditor

/-!
# Completion

What Tab does to the line, over any table of at most 32 command names that are shorter than 250
characters.

* `collectMatches_eq`: the loop over the table finds the names that start with the word left of the
  cursor, and the length of their longest common prefix;
* `shellInsertCompletion_eq`: the completion is written over what stands right of the cursor;
* `commandCompletionWith_ok`: the four outcomes together.
-/

namespace AuriOS

open Program CommonPrefix

/-- The names of the table that start with the word. -/
def matching (names : List (List Byte)) (word : List Byte) : List (List Byte) :=
  names.filter (fun name => word.isPrefixOf name)

/-- What Tab has to insert after the word: the rest of the only match and a space, or what the
longest common prefix of several matches has more than the word. -/
def completion (names : List (List Byte)) (word : List Byte) : Option (List Byte) :=
  if byte ' ' ∈ word then none
  else
    match matching names word with
    | [] => none
    | [name] => some (name.drop word.length ++ [byte ' '])
    | found =>
        if (commonPrefix found).length > word.length then
          some ((commonPrefix found).drop word.length)
        else none

/-- Tab has nothing to insert: the cursor is behind a space, no name starts with the word, or
several do and the word is all that they share. -/
def NothingToInsert (names : List (List Byte)) (word : List Byte) : Prop :=
  byte ' ' ∈ word ∨ (∀ name ∈ names, ¬ word <+: name) ∨
    (∃ a ∈ names, ∃ b ∈ names, a ≠ b ∧ word <+: a ∧ word <+: b) ∧
      ∀ c, ∃ name ∈ names, word <+: name ∧ ¬ word ++ [c] <+: name

/-- The value of `lcp` once these matches were found. -/
def lcpOf : List (List Byte) → ℤ
  | [] => -1
  | first :: others => commonLength first others

/-! ### The routines -/

section Routines

variable {a b str word buffer : List Byte}

/-- The length recognised is how far the two strings agree. -/
theorem commandRecognition_eq {s t : List Byte} (hs : IsString s a) (ht : IsString t b) :
    commandRecognition s t = .ok (agree a b) := by
  obtain ⟨ha, r, rfl⟩ := hs
  obtain ⟨hb, r', rfl⟩ := ht
  induction a generalizing b with
  | nil => cases b <;> simp [commandRecognition, agree] <;> rfl
  | cons x a ih =>
    have hx : x ≠ 0 := (List.ne_of_not_mem_cons ha).symm
    cases b with
    | nil =>
      rw [List.cons_append, List.nil_append, commandRecognition, if_neg (by simp)]
      rfl
    | cons y b =>
      have hy : y ≠ 0 := (List.ne_of_not_mem_cons hb).symm
      rw [List.cons_append, List.cons_append, commandRecognition, agree]
      by_cases hxy : x = y
      · rw [if_pos ⟨hx, hy, hxy⟩, if_pos hxy,
          ih (List.not_mem_of_not_mem_cons ha) (List.not_mem_of_not_mem_cons hb)]
        rfl
      · rw [if_neg fun h => hxy h.2.2, if_neg hxy]
        rfl

/-- The loop finds a space exactly when the word has one. -/
theorem hasSpace_eq (l word r : List Byte) :
    hasSpace (l ++ word ++ r) l.length word.length = .ok (decide (byte ' ' ∈ word)) := by
  induction word generalizing l with
  | nil => rfl
  | cons c word ih =>
    have hread : getByte (l ++ c :: word ++ r) l.length = .ok c := by
      rw [List.append_assoc]
      exact getByte_append l (word ++ r) c
    rw [List.length_cons, hasSpace, hread, ok_bind]
    by_cases hc : c = byte ' '
    · rw [if_pos hc, hc]
      simp
      rfl
    · have ih := ih (l ++ [c])
      rw [List.length_append, List.length_singleton] at ih
      rw [if_neg hc, show l ++ c :: word ++ r = l ++ [c] ++ word ++ r by simp, ih]
      congr 1
      simp [Ne.symm hc]

/-- One more match: `lcp` is the length of the common prefix of all matches so far. -/
theorem lcpOf_concat (found : List (List Byte)) (name : List Byte) :
    lcpOf (found ++ [name]) =
      if lcpOf found < 0 then (name.length : ℤ)
      else if (agree (found.headD []) name : ℤ) < lcpOf found then (agree (found.headD []) name : ℤ)
      else lcpOf found := by
  cases found with
  | nil => rfl
  | cons first others =>
    rw [if_neg (by exact not_lt.mpr (Int.natCast_nonneg _))]
    change ((commonLength first (others ++ [name]) : ℕ) : ℤ) =
      if (agree first name : ℤ) < (commonLength first others : ℕ) then (agree first name : ℤ)
      else (commonLength first others : ℕ)
    unfold commonLength
    rw [List.foldl_append]
    change ((min _ (agree first name) : ℕ) : ℤ) = _
    split <;> omega

/-- The loop over the table. -/
theorem collectMatches_eq (hbuffer : IsString buffer (word ++ b)) {table names : List (List Byte)}
    (htable : List.Forall₂ IsString table names) {found texts : List (List Byte)}
    (hfound : List.Forall₂ IsString found texts) (hroom : texts.length + names.length ≤ 32) :
    ∃ found', collectMatches buffer word.length table found (lcpOf texts) =
        .ok (found', lcpOf (texts ++ matching names word)) ∧
      List.Forall₂ IsString found' (texts ++ matching names word) := by
  induction htable generalizing found texts with
  | nil =>
    refine ⟨found, ?_, ?_⟩
    · rw [collectMatches, matching, List.filter_nil, List.append_nil]
      rfl
    · rwa [matching, List.filter_nil, List.append_nil]
  | @cons pointer name table names hname htable ih =>
    obtain ⟨z, hz, hiff⟩ := strncmp_ok hname hbuffer word.length
    rw [List.take_left, eq_comm (a := name.take word.length), ← List.prefix_iff_eq_take] at hiff
    rw [List.length_cons] at hroom
    rw [collectMatches, hz, ok_bind]
    by_cases hmatch : word <+: name
    · have hmatching : matching (name :: names) word = name :: matching names word :=
        List.filter_cons_of_pos (List.isPrefixOf_iff_prefix.mpr hmatch)
      have hfound' : List.Forall₂ IsString (found ++ [pointer]) (texts ++ [name]) :=
        List.rel_append hfound (.cons hname .nil)
      have hlen : found.length = texts.length := hfound.length_eq
      obtain ⟨found', hrest, hall⟩ := ih hfound' (by
        rw [List.length_append, List.length_singleton]
        omega)
      rw [List.append_assoc, List.singleton_append] at hrest hall
      rw [hmatching]
      refine ⟨found', ?_, hall⟩
      rw [if_pos (hiff.mpr hmatch), if_pos (by omega : found.length < 32), ← hrest, lcpOf_concat]
      split
      · rw [strlen_eq hname, ok_bind]
      · next hneg =>
        have hhead : IsString ((found ++ [pointer]).headD []) (texts.headD []) := by
          cases hfound with
          | nil => exact absurd (by decide : lcpOf [] < 0) hneg
          | cons hfirst _ => exact hfirst
        dsimp only
        rw [commandRecognition_eq hhead hname, ok_bind]
    · have hmatching : matching (name :: names) word = matching names word :=
        List.filter_cons_of_neg fun h => hmatch (List.isPrefixOf_iff_prefix.mp h)
      rw [hmatching, if_neg fun h => hmatch (hiff.mp h)]
      exact ih hfound (by omega)

/-- Every match starts with the word. -/
theorem prefix_of_mem_matching {names : List (List Byte)} {name : List Byte}
    (h : name ∈ matching names word) : name ∈ names ∧ word <+: name := by
  rw [matching, List.mem_filter] at h
  exact ⟨h.1, List.isPrefixOf_iff_prefix.mp h.2⟩

/-- Nothing is inserted exactly when there is nothing to insert. -/
theorem completion_eq_none_iff {names : List (List Byte)} (hnodup : names.Nodup)
    (word : List Byte) : completion names word = none ↔ NothingToInsert names word := by
  have hmem : ∀ name, name ∈ matching names word ↔ name ∈ names ∧ word <+: name := by
    intro name
    rw [matching, List.mem_filter, List.isPrefixOf_iff_prefix]
  have hfound : (matching names word).Nodup := hnodup.filter _
  unfold completion NothingToInsert
  by_cases hspace : byte ' ' ∈ word
  · rw [if_pos hspace]
    exact iff_of_true rfl (Or.inl hspace)
  rw [if_neg hspace, or_iff_right hspace]
  generalize matching names word = found at hmem hfound
  match found, hmem, hfound with
  | [], hmem, _ =>
    refine iff_of_true rfl (Or.inl fun name hname hword => ?_)
    exact List.not_mem_nil ((hmem name).mpr ⟨hname, hword⟩)
  | [only], hmem, _ =>
    have honly := (hmem only).mp List.mem_cons_self
    refine iff_of_false (Option.some_ne_none _) ?_
    rintro (hno | ⟨⟨a, ha, b, hb, hne, hwa, hwb⟩, -⟩)
    · exact hno only honly.1 honly.2
    · have ha' := List.mem_singleton.mp ((hmem a).mpr ⟨ha, hwa⟩)
      have hb' := List.mem_singleton.mp ((hmem b).mpr ⟨hb, hwb⟩)
      exact hne (ha'.trans hb'.symm)
  | first :: second :: others, hmem, hfound =>
    have hfirst := (hmem first).mp List.mem_cons_self
    have hsecond := (hmem second).mp (List.mem_cons_of_mem _ List.mem_cons_self)
    have hne : first ≠ second := by
      rintro rfl
      exact (List.nodup_cons.mp hfound).1 List.mem_cons_self
    have hlonger := lt_length_commonPrefix_iff fun name hname => ((hmem name).mp hname).2
    have hshare : (∃ c, ∀ name ∈ first :: second :: others, word ++ [c] <+: name) ↔
        ¬ ∀ c, ∃ name ∈ names, word <+: name ∧ ¬ word ++ [c] <+: name := by
      push Not
      refine exists_congr fun c => forall_congr' fun name => ?_
      rw [hmem name, and_imp]
    dsimp only
    by_cases hlong : (commonPrefix (first :: second :: others)).length > word.length
    · rw [if_pos hlong]
      refine iff_of_false (Option.some_ne_none _) ?_
      rintro (hno | ⟨-, hdiffer⟩)
      · exact hno first hfirst.1 hfirst.2
      · exact hshare.mp (hlonger.mp hlong) hdiffer
    · rw [if_neg hlong]
      refine iff_of_true rfl (Or.inr ⟨⟨first, hfirst.1, second, hsecond.1, hne, hfirst.2,
        hsecond.2⟩, ?_⟩)
      by_contra hdiffer
      exact hlong (hlonger.mpr (hshare.mpr hdiffer))

end Routines

/-! ### Inserting -/

section Insert

variable {W : Type} {s : Shell W} {z : Line} {k k₁ : Console}

/-- The characters of the completion replace what stood from the cursor on, and are printed. -/
theorem insertFrom_eq {pre seg post done old : List Byte} (hlen : pre.length = done.length)
    (hold : seg.length ≤ old.length) (hlt : done.length + seg.length ≤ 254)
    (hk : putchars k seg = .ok k₁) :
    insertFrom (pre ++ seg ++ post) done.length seg.length (done ++ old) k =
      .ok (done ++ seg ++ old.drop seg.length, k₁) := by
  induction seg generalizing pre done old k with
  | nil =>
    obtain rfl : k = k₁ := Except.ok.inj hk
    simp [insertFrom]
    rfl
  | cons c seg ih =>
    obtain ⟨o, old, rfl⟩ := List.exists_cons_of_length_pos (Nat.zero_lt_of_lt hold)
    have hread : getByte (pre ++ c :: seg ++ post) done.length = .ok c := by
      rw [List.append_assoc, ← hlen]
      exact getByte_append pre (seg ++ post) c
    have hwrite : setByte (done ++ o :: old) done.length c = .ok (done ++ [c] ++ old) := by
      rw [setByte_append]
      simp
    unfold putchars at hk
    rw [List.foldlM_cons, except_bind_eq_ok] at hk
    obtain ⟨k₂, hput, hrest⟩ := hk
    rw [List.length_cons] at hold hlt
    have hlen' : (pre ++ [c]).length = (done ++ [c]).length := by simp [hlen]
    have hold' : seg.length ≤ old.length := by simpa using hold
    have ih := ih hlen' hold' (by simp; omega) hrest
    rw [List.length_append, List.length_singleton] at ih
    have hin : ¬ (done.length : ℤ) ≥ (bufferSize : ℕ) - 2 := by
      change ¬ (done.length : ℤ) ≥ 256 - 2
      omega
    rw [List.length_cons, insertFrom, if_neg hin, hread, ok_bind, hwrite, ok_bind, hput, ok_bind,
      show pre ++ c :: seg ++ post = pre ++ [c] ++ seg ++ post by simp]
    refine (ih.trans ?_)
    simp

/-- The characters after the word, and a space where the completion is unambiguous, go to where the
cursor is; what stood there is overwritten and cut off. -/
theorem shellInsertCompletion_eq (h : Edits s z) {pointer seg post : List Byte}
    (hname : IsString pointer (z.left ++ seg ++ post)) (hlt : z.left.length + seg.length ≤ 250)
    (addSpace : Bool)
    (hk : putchars s.console (seg ++ if addSpace then [byte ' '] else []) = .ok k₁) :
    ∃ buffer', HoldsString bufferSize buffer'
        (z.left ++ (seg ++ if addSpace then [byte ' '] else [])) ∧
      shellInsertCompletion pointer (z.left.length + seg.length : ℕ) addSpace s = .ok { s with
        buffer := buffer'
        bufferPos := (z.left ++ (seg ++ if addSpace then [byte ' '] else [])).length
        console := k₁ } := by
  obtain ⟨hsize, h0, rest, hbuffer⟩ := h.buffer
  obtain ⟨hname0, after, hpointer⟩ := hname
  have hbuffer' : s.buffer = z.left ++ (z.right ++ 0 :: rest) := by
    rw [hbuffer, BoundedZipper.text, List.append_assoc]
  have hroom : z.left.length + (z.right ++ 0 :: rest).length = 256 := by
    rw [← List.length_append, ← hbuffer', hsize]
    rfl
  obtain ⟨o, o', old, hold⟩ :
      ∃ o o' old, (z.right ++ 0 :: rest).drop seg.length = o :: o' :: old := by
    have hdrop : 2 ≤ ((z.right ++ 0 :: rest).drop seg.length).length := by
      rw [List.length_drop]
      omega
    obtain ⟨o, tail, htail⟩ := List.exists_cons_of_length_pos (Nat.zero_lt_of_lt hdrop)
    rw [htail, List.length_cons] at hdrop
    obtain ⟨o', old, rfl⟩ := List.exists_cons_of_length_pos (Nat.lt_of_succ_lt_succ hdrop)
    exact ⟨o, o', old, htail⟩
  have h0' : 0 ∉ z.left ++ seg := fun hm => hname0 (List.mem_append_left _ hm)
  obtain ⟨k₂, hprint, hspace⟩ : ∃ k₂, putchars s.console seg = .ok k₂ ∧
      putchars k₂ (if addSpace then [byte ' '] else []) = .ok k₁ := by
    rw [putchars_append, except_bind_eq_ok] at hk
    exact hk
  have hinsert : insertFrom pointer s.bufferPos
      (((z.left.length + seg.length : ℕ) : ℤ) - s.bufferPos).toNat s.buffer s.console =
      .ok (z.left ++ seg ++ o :: o' :: old, k₂) := by
    rw [h.pos, hbuffer', hpointer,
      show (((z.left.length + seg.length : ℕ) : ℤ) - (z.left.length : ℕ)).toNat = seg.length by
        omega, ← hold, List.append_assoc (z.left ++ seg)]
    exact insertFrom_eq rfl (by omega) (by omega) hprint
  have hset : ∀ b c : Byte, ∀ l : List Byte, setByte (z.left ++ seg ++ b :: l)
      (z.left.length + seg.length : ℕ) c = .ok (z.left ++ seg ++ c :: l) := by
    intro b c l
    rw [← List.length_append]
    exact setByte_append _ _ _ _
  have hset' : setByte (z.left ++ seg ++ byte ' ' :: o' :: old)
      (((z.left.length + seg.length : ℕ) : ℤ) + 1) 0 =
      .ok (z.left ++ seg ++ byte ' ' :: 0 :: old) := by
    have happend := setByte_append (z.left ++ seg ++ [byte ' ']) old o' 0
    rw [show ((z.left ++ seg ++ [byte ' ']).length : ℤ) =
      ((z.left.length + seg.length : ℕ) : ℤ) + 1 by simp; ring] at happend
    simpa using happend
  have hlen : (z.left ++ seg ++ o :: o' :: old).length = bufferSize := by
    rw [← hold]
    simp only [List.length_append, List.length_drop] at hroom ⊢
    change _ = 256
    omega
  unfold shellInsertCompletion
  rw [hinsert, ok_bind]
  dsimp only
  rw [hset, ok_bind]
  cases addSpace with
  | false =>
    obtain rfl : k₂ = k₁ := Except.ok.inj hspace
    refine ⟨z.left ++ seg ++ 0 :: o' :: old, ⟨?_, ?_, o' :: old, ?_⟩, ?_⟩
    · rw [← hlen]
      simp
    · simpa using h0'
    · simp
    · rw [if_neg (by simp)]
      simp
      rfl
  | true =>
    have hput : terminalPutchar k₂ (byte ' ') = .ok k₁ := by
      have hsingle : putchars k₂ [byte ' '] = terminalPutchar k₂ (byte ' ') := bind_pure _
      rw [← hsingle]
      exact hspace
    refine ⟨z.left ++ seg ++ byte ' ' :: 0 :: old, ⟨?_, ?_, old, ?_⟩, ?_⟩
    · rw [← hlen]
      simp
    · rw [if_pos rfl, ← List.append_assoc]
      intro hm
      rcases List.mem_append.mp hm with hm | hm
      · exact h0' hm
      · exact absurd (List.mem_singleton.mp hm) (by decide)
    · simp
    · have hin : ((z.left.length + seg.length : ℕ) : ℤ) < (bufferSize : ℕ) - 1 := by
        change ((z.left.length + seg.length : ℕ) : ℤ) < 256 - 1
        omega
      rw [if_pos ⟨rfl, hin⟩, hset, ok_bind, hset', ok_bind, hput, ok_bind]
      simp
      rfl

/-- What Tab leaves in the editor when it had this to insert. -/
def Completed (s s' : Shell W) (z : Line) : Option (List Byte) → Prop
  | none => s'.buffer = s.buffer ∧ s'.bufferPos = s.bufferPos
  | some ins => HoldsString bufferSize s'.buffer (z.left ++ ins) ∧
      s'.bufferPos = (z.left ++ ins).length

/-- The rest of the shell. -/
structure SameButEditor (s s' : Shell W) : Prop where
  history_eq : s'.history = s.history
  prompt_eq : s'.prompt = s.prompt
  world_eq : s'.world = s.world

/-- The candidate list, between newlines. -/
def candidateList (found : List (List Byte)) : List Byte :=
  chars "\n" ++ (found.flatMap (· ++ chars "  ") ++ chars "\n")

/-- Whether Tab lists candidates: there are several, and nothing to insert. -/
def Lists (names : List (List Byte)) (word : List Byte) : Prop :=
  byte ' ' ∉ word ∧ 2 ≤ (matching names word).length ∧ completion names word = none

instance (names : List (List Byte)) (word : List Byte) : Decidable (Lists names word) :=
  inferInstanceAs (Decidable (_ ∧ _))

/-- What Tab sends to the terminal: what it inserts, or the list and then the prompt and the line
anew. -/
def tabOutput (names : List (List Byte)) (z : Line) (prompt : List Byte) : List Byte :=
  if Lists names z.left then candidateList (matching names z.left) ++ (prompt ++ z.text)
  else (completion names z.left).getD []

/-- The candidates are printed, each with two blanks. -/
theorem writeMatches_sends {found texts : List (List Byte)}
    (hfound : List.Forall₂ IsString found texts) :
    Sends (writeMatches found) (texts.flatMap (· ++ chars "  ")) := by
  induction hfound with
  | nil => exact sends_pure
  | cons hname _ ih =>
    intro k
    have hblanks := sends_writestring (isString_literal (s := "  ") (by decide))
    rw [writeMatches, List.flatMap_cons, List.append_assoc]
    exact (sends_writestring hname).then (hblanks.then ih) k

/-- The candidate list changes the console only. -/
theorem listCandidates_ok (h : Edits s z) (hs : s.console.Valid) {out : List Byte}
    (hout : ∀ k, shellRenderPrompt s.prompt k = putchars k out)
    {found texts : List (List Byte)} (hfound : List.Forall₂ IsString found texts) :
    ∃ k', (do
      let k ← terminalPutchar s.console (byte '\n')
      let k ← writeMatches found k
      let k ← terminalPutchar k (byte '\n')
      let k ← shellRenderPrompt s.prompt k
      let k ← terminalWritestring k s.buffer
      pure { s with console := k }) = Except.ok { s with console := k' } ∧ k'.Valid ∧
      putchars s.console (candidateList texts ++ (out ++ z.text)) = .ok k' := by
  have hnewline : Sends (fun k => terminalPutchar k (byte '\n')) (chars "\n") :=
    fun _ => (bind_pure _).symm
  have hline : Sends (fun k => terminalWritestring k s.buffer) z.text :=
    sends_writestring h.buffer.2
  have hprompt : Sends (shellRenderPrompt s.prompt) out := hout
  obtain ⟨k', hprint, hk'⟩ := putchars_ok hs (candidateList texts ++ (out ++ z.text))
  refine ⟨k', ?_, hk', hprint⟩
  have hall := (hnewline.then ((writeMatches_sends hfound).then
    (hnewline.then (hprompt.then hline)))) s.console
  unfold candidateList at hprint
  simp only [List.append_assoc] at hall hprint
  rw [hprint] at hall
  simp only [← bind_assoc] at hall ⊢
  rw [hall]
  rfl

/-- With no candidate nothing is inserted. -/
theorem completion_of_nil {names : List (List Byte)} {word : List Byte} (hspace : byte ' ' ∉ word)
    (hfound : matching names word = []) : completion names word = none := by
  unfold completion
  rw [if_neg hspace, hfound]

/-- A single candidate is completed, with a blank. -/
theorem completion_of_single {names : List (List Byte)} {word name : List Byte}
    (hspace : byte ' ' ∉ word) (hfound : matching names word = [name]) :
    completion names word = some (name.drop word.length ++ [byte ' ']) := by
  unfold completion
  rw [if_neg hspace, hfound]

/-- Several candidates are completed as far as they agree. -/
theorem completion_of_several {names : List (List Byte)} {word : List Byte}
    (hspace : byte ' ' ∉ word) (hfound : 2 ≤ (matching names word).length) :
    completion names word = if (commonPrefix (matching names word)).length > word.length then
      some ((commonPrefix (matching names word)).drop word.length) else none := by
  unfold completion
  rw [if_neg hspace]
  cases hcase : matching names word with
  | nil => rw [hcase] at hfound; exact absurd hfound (by decide)
  | cons first others =>
    cases others with
    | nil => rw [hcase] at hfound; exact absurd hfound (show ¬ 2 ≤ 1 by decide)
    | cons second others => rfl

/-- Tab never stops; what it does to the line depends on the table and on the word only, what it
prints also on the prompt. -/
theorem commandCompletionWith_ok (h : Edits s z) (hs : s.console.Valid) {out : List Byte}
    (hout : ∀ k, shellRenderPrompt s.prompt k = putchars k out)
    {table names : List (List Byte)} (htable : List.Forall₂ IsString table names)
    (hlen : names.length ≤ 32) (hshort : ∀ name ∈ names, name.length < 250) :
    ∃ s', commandCompletionWith table s = .ok s' ∧ s'.console.Valid ∧ SameButEditor s s' ∧
      Completed s s' z (completion names z.left) ∧
      putchars s.console (tabOutput names z out) = .ok s'.console := by
  have hspace : hasSpace s.buffer 0 s.bufferPos.toNat = .ok (decide (byte ' ' ∈ z.left)) := by
    obtain ⟨hsize, h0, rest, hbuffer⟩ := h.buffer
    rw [h.pos, hbuffer, Int.toNat_natCast, BoundedZipper.text, List.append_assoc]
    exact hasSpace_eq [] z.left (z.right ++ 0 :: rest)
  have hprefix : (s.bufferPos % 2 ^ 32).toNat = z.left.length := by
    have hfits := z.fits
    rw [h.pos]
    omega
  unfold commandCompletionWith
  rw [hspace, ok_bind]
  by_cases hin : byte ' ' ∈ z.left
  · have hnone : completion names z.left = none := if_pos hin
    have hlists : ¬ Lists names z.left := fun hl => hl.1 hin
    rw [decide_eq_true hin, if_pos rfl, tabOutput, if_neg hlists, hnone]
    exact ⟨s, rfl, hs, ⟨rfl, rfl, rfl⟩, ⟨rfl, rfl⟩, rfl⟩
  rw [decide_eq_false hin, if_neg Bool.false_ne_true, hprefix]
  obtain ⟨found, hcollect, hfound⟩ :=
    collectMatches_eq h.buffer.2 htable (.nil : List.Forall₂ IsString [] []) (by simpa using hlen)
  rw [List.nil_append] at hcollect hfound
  change collectMatches s.buffer z.left.length table [] (-1) = _ at hcollect
  have hmem : ∀ name ∈ matching names z.left, z.left <+: name ∧ name.length < 250 :=
    fun name hname => ⟨(prefix_of_mem_matching hname).2,
      hshort name (prefix_of_mem_matching hname).1⟩
  rw [hcollect, ok_bind]
  dsimp only
  cases hmatching : matching names z.left with
  | nil =>
    rw [hmatching] at hfound
    obtain rfl := List.forall₂_nil_right_iff.mp hfound
    have hnone := completion_of_nil hin hmatching
    have hlists : ¬ Lists names z.left := fun hl => absurd hl.2.1 (by rw [hmatching]; decide)
    rw [tabOutput, if_neg hlists, hnone]
    exact ⟨s, rfl, hs, ⟨rfl, rfl, rfl⟩, ⟨rfl, rfl⟩, rfl⟩
  | cons first others =>
    rw [hmatching] at hfound hmem
    obtain ⟨pointer, pointers, hfirst, hrest, rfl⟩ := List.forall₂_cons_right_iff.mp hfound
    cases others with
    | nil =>
      obtain rfl := List.forall₂_nil_right_iff.mp hrest
      obtain ⟨⟨seg, rfl⟩, hlt⟩ := hmem first List.mem_cons_self
      rw [List.length_append] at hlt
      have hname' : IsString pointer (z.left ++ seg ++ []) := by rwa [List.append_nil]
      have hsome := completion_of_single hin hmatching
      rw [List.drop_left] at hsome
      have hlists : ¬ Lists names z.left :=
        fun hl => Option.some_ne_none _ (hsome.symm.trans hl.2.2)
      obtain ⟨k₁, hk, hk₁⟩ := putchars_ok hs (seg ++ if true then [byte ' '] else [])
      obtain ⟨buffer', hbuffer', hrun⟩ :=
        shellInsertCompletion_eq h hname' (by omega) true hk
      dsimp only
      rw [strlen_eq hfirst, ok_bind, List.length_append, hrun, tabOutput, if_neg hlists, hsome]
      exact ⟨_, rfl, hk₁, ⟨rfl, rfl, rfl⟩, ⟨hbuffer', rfl⟩, hk⟩
    | cons second others =>
      obtain ⟨pointer', pointers, hsecond, hothers, rfl⟩ := List.forall₂_cons_right_iff.mp hrest
      have hseveral : 2 ≤ (matching names z.left).length := by
        rw [hmatching]
        exact Nat.succ_le_succ (Nat.succ_le_succ (Nat.zero_le _))
      have hcompletion := completion_of_several hin hseveral
      have hlcp : lcpOf (first :: second :: others) =
          (commonPrefix (first :: second :: others)).length := by
        rw [length_commonPrefix]
        rfl
      have hpos := h.pos
      rw [hmatching] at hcompletion
      dsimp only
      rw [hlcp]
      by_cases hlonger : (commonPrefix (first :: second :: others)).length > z.left.length
      · obtain ⟨seg, hseg⟩ : z.left <+: commonPrefix (first :: second :: others) :=
          prefix_commonPrefix fun name hname => (hmem name hname).1
        obtain ⟨post, hpost⟩ : commonPrefix (first :: second :: others) <+: first :=
          commonPrefix_prefix_of_mem List.mem_cons_self
        have hlt := (hmem first List.mem_cons_self).2
        rw [if_pos hlonger, ← hseg, List.drop_left] at hcompletion
        have hlists : ¬ Lists names z.left :=
          fun hl => Option.some_ne_none _ (hcompletion.symm.trans hl.2.2)
        rw [← hpost, ← hseg] at hfirst hlt
        rw [List.length_append, List.length_append] at hlt
        obtain ⟨k₁, hk, hk₁⟩ := putchars_ok hs (seg ++ if false then [byte ' '] else [])
        obtain ⟨buffer', hbuffer', hrun⟩ :=
          shellInsertCompletion_eq h hfirst (by omega) false hk
        rw [if_pos (by rw [hpos]; exact_mod_cast hlonger), ← hseg, List.length_append, hrun,
          tabOutput, if_neg hlists, hcompletion]
        rw [if_neg Bool.false_ne_true, List.append_nil] at hbuffer' hk ⊢
        exact ⟨_, rfl, hk₁, ⟨rfl, rfl, rfl⟩, ⟨hbuffer', rfl⟩, hk⟩
      · rw [if_neg hlonger] at hcompletion
        have hlists : Lists names z.left := ⟨hin, hseveral, hcompletion⟩
        obtain ⟨k', hrun, hk', hprint⟩ :=
          listCandidates_ok h hs hout (.cons hfirst (.cons hsecond hothers))
        rw [if_neg (by rw [hpos]; exact_mod_cast hlonger), hrun, tabOutput, if_pos hlists,
          hcompletion, hmatching]
        exact ⟨_, rfl, hk', ⟨rfl, rfl, rfl⟩, ⟨rfl, rfl⟩, hprint⟩

end Insert

end AuriOS
